import Zytherion.Minting
import Zytherion.SecuredDebt

/-!
# How much may be minted

The value of the collateral is exact. Dividing it by the minimum ratio rounds
half to even at the eighteenth decimal, and only then is the limit cut off to a
whole number. When the exact quotient lies within half a step below an integer,
the rounding reaches that integer, and one coin more than the collateral allows
is minted. A step is `10⁻¹⁸`, so this needs a minimum ratio of at least two,
which the chain's own collateral has.
-/
namespace Zytherion.MintBound

open GoCall KeyedStore SdkMath HalfEven Application ChainState Bank CollateralKeeper StablecoinKeeper
open CollateralMsgServer StablecoinMsgServer Chain Ledger VaultSolvency Withdrawals Minting Devnet
open SecuredDebt

/-- Every mint against `x` at the price `p` and the minimum ratio `minRatio`, in
any state and whatever is asked for, is worth at most the collateral over the
ratio. -/
def MintsWithin (x : SdkInt) (p minRatio : Dec) : Prop :=
  ∀ (A : App) (ctx : Ctx A) (s t : State) (msg : MsgMintZYTD) (asset : CollateralAsset)
    (twap : TWAPData) (requested minted : SdkInt),
    s.assets.get (assetKey msg.ibcDenom) = some asset → asset.isActive = true →
    asset.minRatio = minRatio → s.twaps.get ("twap/" ++ msg.ibcDenom) = some twap →
    twap.twap = p → msg.collateralAmount = some x → msg.requestedZytd = some requested →
    msg.validateBasic A s = .ok () s → mintZYTD ctx msg s = .ok minted t →
    requested.val * minRatio.value ≤ x.val * p.value

/-- The value `v` misses a multiple of the ratio `r` by at most half a step of
the quotient. -/
def ReachesNext (v r : ℤ) : Prop := 2 * precision * (r - v % r) ≤ r

instance (v r : ℤ) : Decidable (ReachesNext v r) := inferInstanceAs (Decidable (_ ≤ _))

section Limit
variable {usd minRatio : Dec} {limit : SdkInt}

theorem maxMintable_val (husd : 0 ≤ usd.raw) (hr : 0 < minRatio.raw)
    (h : maxMintable usd minRatio = .ok limit) :
    limit.val = halfEven precision (usd.raw * (precision * precision) / minRatio.raw) / precision := by
  have hdiv : 0 ≤ usd.raw * (precision * precision) / minRatio.raw :=
    Int.ediv_nonneg (mul_nonneg husd (mul_nonneg precision_pos.le precision_pos.le)) hr.le
  simp only [maxMintable, checked_bind_ok, Dec.truncateInt_ok] at h
  obtain ⟨c, hc, hlimit⟩ := h
  rw [hlimit, Dec.quo_raw husd hr hc,
    Int.tdiv_eq_ediv_of_nonneg (halfEven_nonneg precision_pos hdiv)]

/-- The limit is the exact one unless the rounding reaches the next integer. -/
theorem limit_le_iff (husd : 0 ≤ usd.raw) (hr : 0 < minRatio.raw)
    (h : maxMintable usd minRatio = .ok limit) :
    limit.val ≤ usd.raw / minRatio.raw ↔ ¬ ReachesNext usd.raw minRatio.raw := by
  rw [maxMintable_val husd hr h, ediv_halfEven_le_iff precision_pos (by decide) hr, ReachesNext,
    not_le]

end Limit

/-- A mint that returned was accepted first. -/
theorem mintZYTD_accepted {A : App} {ctx : Ctx A} {s t : State} {req : MsgMintZYTD} {r : SdkInt}
    (h : mintZYTD ctx req s = .ok r t) : ∃ terms, mintTerms ctx req s = .ok terms s := by
  simp only [mintZYTD, bind_ok] at h
  obtain ⟨terms, m, hterms, -⟩ := h
  obtain ⟨rfl, -⟩ := mintTerms_ok hterms
  exact ⟨terms, hterms⟩

theorem mintsWithin_of_not_reaches {x : SdkInt} {p minRatio : Dec} (hx : 0 < x.val) (hp : 0 < p.raw)
    (hr : 0 < minRatio.raw)
    (h : (decBound : ℤ) ≤ x.val * p.raw ∨ ¬ ReachesNext (x.val * p.raw) minRatio.raw) :
    MintsWithin x p minRatio := by
  intro A ctx s t msg asset twap requested minted hasset _ hratio htwap hprice hamount hrequested _
    hmint
  obtain ⟨terms, hterms⟩ := mintZYTD_accepted hmint
  obtain ⟨-, -, hamount', hrequested', asset', twap', limit, hasset', -, htwap', husd, hlimit, hle⟩ :=
    mintTerms_ok hterms
  obtain rfl : asset = asset' := Option.some.inj (hasset.symm.trans hasset')
  obtain rfl : twap = twap' := Option.some.inj (htwap.symm.trans htwap')
  obtain rfl : x = terms.amount := Option.some.inj (hamount.symm.trans hamount')
  obtain rfl : requested = terms.requested := Option.some.inj (hrequested.symm.trans hrequested')
  subst hratio hprice
  obtain ⟨hraw, hbound⟩ := collateralValue_ok husd
  have hpos : 0 ≤ terms.collateralUSD.raw := by
    rw [hraw]
    exact (mul_pos hx hp).le
  rcases h with h | h
  · omega
  · rw [← hraw] at h
    have hlimit' := (limit_le_iff hpos hr hlimit).mpr h
    rw [Dec.mul_value_le_iff, ← hraw]
    calc terms.requested.val * asset.minRatio.raw
        ≤ terms.collateralUSD.raw / asset.minRatio.raw * asset.minRatio.raw :=
          mul_le_mul_of_nonneg_right (hle.trans hlimit') hr.le
      _ ≤ terms.collateralUSD.raw := Int.ediv_mul_le _ hr.ne'

/-- The development network where `alice` owns just the collateral `x`, priced at `p`. -/
def shop (x : SdkInt) (p minRatio : Dec) : State where
  balances a d := if d = "uzytc" ∧ a = alice then x else .zero
  supply d := if d = "uzytc" then x else .zero
  assets := (∅ : Store String CollateralAsset).set (assetKey "uzytc")
    ⟨"uzytc", "ZYTC", minRatio, minRatio, true⟩
  positions := ∅
  locked := ∅
  twaps := (∅ : Store String TWAPData).set "twap/uzytc" ⟨"uzytc", p, 0, 0, 1⟩
  params := none
  records := ∅
  totalSupply := none
  pqcKeys := ∅

def aliceAsks (x requested : SdkInt) : MsgMintZYTD :=
  ⟨devnet.text alice, "uzytc", some x, some requested, 5, [], []⟩

section Shop
variable {x requested limit : SdkInt} {p minRatio usd : Dec}

theorem shop_funded (hx : 0 < x.val) : Funded (shop x p minRatio) := by
  intro d
  have hzero : Backed (fun _ : AccAddress => (0 : ℤ)) 0 := ⟨fun _ => le_refl 0, by simp⟩
  by_cases hd : d = "uzytc"
  · have hone := hzero.issue (a := alice) hx.le
    convert hone using 1
    · funext a
      simp only [State.held, shop, issue, hd, true_and]
      split_ifs <;> simp
    · simp [shop, hd]
  · have hheld : (shop x p minRatio).held d = fun _ => 0 := by
      funext a
      simp [State.held, shop, hd]
    rw [hheld]
    simpa [shop, hd] using hzero

theorem shop_sound (hx : 0 < x.val) : Sound devnet (shop x p minRatio) where
  solvent := solvent_of_empty rfl rfl fun d => (shop_funded hx d).nonneg _
  funded := shop_funded hx
  denom owner d pos h := by simp [shop] at h

theorem aliceAsks_valid (hx : 0 < x.val) (hr : 0 < requested.val) (s : State) :
    (aliceAsks x requested).validateBasic devnet s = .ok () s := by
  simp only [MsgMintZYTD.validateBasic, aliceAsks, bind_ok, address_ok, requireDenom,
    requireExpiration, require_ok, requirePositive_ok]
  exact ⟨alice, s, ⟨devnet.accAddressFromBech32_text alice, rfl⟩, (), s, ⟨by decide, rfl⟩, (), s,
    ⟨⟨x, rfl, hx⟩, rfl⟩, (), s, ⟨⟨requested, rfl, hr⟩, rfl⟩, rfl, rfl⟩

theorem aliceAsks_accepted (husd : collateralValue x p = .ok usd)
    (hlimit : maxMintable usd minRatio = .ok limit) (hle : requested.val ≤ limit.val) :
    mintTerms block (aliceAsks x requested) (shop x p minRatio) =
      .ok ⟨alice, x, usd, requested⟩ (shop x p minRatio) := by
  have hsig : verifyZYTDPQCSig block alice "uzytc" 5 [] [] (shop x p minRatio) =
      .ok () (shop x p minRatio) :=
    verifyZYTDPQCSig_unregistered (by simp [shop]) (by decide)
  simp only [mintTerms, aliceAsks, bind_ok, address_ok, ofExcept_ok, mapErr_ok, getCollateralAsset,
    getTWAP, lookup_ok, require_ok, deref, liftM_ok, orPanic_ok, Bool.not_eq_true',
    SdkInt.gt_eq_false, pure_ok]
  exact ⟨alice, _, ⟨devnet.accAddressFromBech32_text alice, rfl⟩, (), _, ⟨rfl, rfl⟩, (), _, hsig, _, _,
    ⟨Store.get_set_self .., rfl⟩, (), _, ⟨rfl, rfl⟩, _, _, ⟨Store.get_set_self .., rfl⟩, x, _,
    ⟨rfl, rfl⟩, usd, _, ⟨husd, rfl⟩, limit, _, ⟨hlimit, rfl⟩, requested, _, ⟨rfl, rfl⟩, (), _,
    ⟨hle, rfl⟩, rfl, rfl⟩

/-- There every amount up to the limit is minted. -/
theorem aliceAsks_returns (hx : 0 < x.val) (hr : 0 < requested.val) (hp : 0 < p.raw)
    (husd : collateralValue x p = .ok usd) (hlimit : maxMintable usd minRatio = .ok limit)
    (hle : requested.val ≤ limit.val) :
    ∃ t, mintZYTD block (aliceAsks x requested) (shop x p minRatio) = .ok requested t := by
  obtain ⟨hraw, hbound⟩ := collateralValue_ok husd
  have hpos := mul_pos hx hp
  have hroom := requested.lt_bound
  have hdenom : validateDenom "uzytc" = true := by decide
  have hsupply : ((shop x p minRatio).supply zytdDenom).val = 0 := by
    simp [shop, zytdDenom]
  have hposition : (positionOr block (shop x p minRatio) alice "uzytc").mintedZYTD.val = 0 := by
    simp [positionOr, shop, freshPosition]
  have hpayable : Payable block (aliceAsks x requested) (shop x p minRatio) ⟨alice, x, usd, requested⟩ := by
    refine ⟨aliceAsks_accepted husd hlimit hle, hdenom, hx, hr, alice_unblocked, ?_, ?_, ?_, ?_, ?_⟩
    · simp [spendable, State.held, shop, block, aliceAsks]
    · show ((shop x p minRatio).supply zytdDenom).val + requested.val < _
      rw [hsupply]
      omega
    · show (positionOr block (shop x p minRatio) alice "uzytc").mintedZYTD.val + requested.val < _
      rw [hposition]
      omega
    · simp [shop]
    · simp only [totalSupplyOf, shop, Option.getD_none, SdkInt.zero_val]
      omega
  refine mintZYTD_returns (shop_sound hx) hpayable ?_ ?_
  · show 0 ≤ usd.raw
    rw [hraw]
    exact hpos.le
  · show usd.raw < decBound
    rw [hraw]
    omega

/-- A value that reaches the next integer lets one coin too many be minted. -/
theorem exceeds_of_reaches (hx : 0 < x.val) (hp : 0 < p.raw) (hr : 0 < minRatio.raw)
    (hfits : x.val * p.raw < decBound) (h : ReachesNext (x.val * p.raw) minRatio.raw) :
    ¬ MintsWithin x p minRatio := by
  have hpos := mul_pos hx hp
  have hmod := Int.emod_lt_of_pos (x.val * p.raw) hr
  have hratio : 2 * precision ≤ minRatio.raw := by
    have hgap : 2 * precision * 1 ≤ 2 * precision * (minRatio.raw - x.val * p.raw % minRatio.raw) :=
      mul_le_mul_of_nonneg_left (by omega) (by decide)
    exact (mul_one (2 * precision)).symm.le.trans (hgap.trans h)
  have husd : collateralValue x p = .ok ⟨x.val * p.raw⟩ := by
    rw [collateralValue, Dec.mul_ok, Dec.chop_ofInt_mul]
    exact ⟨rfl, by omega⟩
  have hone : precision ≤ minRatio.raw := le_trans (by decide) hratio
  obtain ⟨quotient, hquotient, hq₀, hq₁⟩ := Dec.quo_returns (a := ⟨x.val * p.raw⟩) hpos.le hr
    (mul_le_mul_of_nonneg_left hone hpos.le) hfits
  obtain ⟨limit, htruncate, -⟩ := Dec.truncateInt_returns hq₀ (lt_of_le_of_lt hq₁ hfits)
  have hlimit : maxMintable ⟨x.val * p.raw⟩ minRatio = .ok limit := by
    simp only [maxMintable, checked_bind_ok]
    exact ⟨quotient, hquotient, htruncate⟩
  -- the limit itself is asked for
  have hover : x.val * p.raw / minRatio.raw < limit.val := by
    have hexact := limit_le_iff (by exact hpos.le) hr hlimit
    rw [← not_le, hexact, not_not]
    exact h
  have hrequested : 0 < limit.val := lt_of_le_of_lt (Int.ediv_nonneg hpos.le hr.le) hover
  obtain ⟨t, hmint⟩ := aliceAsks_returns hx hrequested hp husd hlimit (le_refl limit.val)
  intro hwithin
  have hbad := hwithin devnet block (shop x p minRatio) t (aliceAsks x limit) _ _ limit limit
    (Store.get_set_self ..) rfl rfl (Store.get_set_self ..) rfl rfl rfl
    (aliceAsks_valid hx hrequested _) hmint
  rw [Dec.mul_value_le_iff, ← Int.le_ediv_iff_mul_le hr] at hbad
  omega

end Shop

/-- Mints stay within the collateral bound exactly when the value is too large
to be computed at all, or does not reach the next multiple of the ratio. -/
theorem mint_within_bound_iff (x : SdkInt) (p minRatio : Dec) (hx : 0 < x.val) (hp : 0 < p.raw)
    (hr : 0 < minRatio.raw) : MintsWithin x p minRatio ↔
      (decBound : ℤ) ≤ x.val * p.raw ∨ ¬ ReachesNext (x.val * p.raw) minRatio.raw := by
  constructor
  · intro hwithin
    by_contra hnot
    rw [not_or, not_le, not_not] at hnot
    exact exceeds_of_reaches hx hp hr hnot.1 hnot.2 hwithin
  · exact mintsWithin_of_not_reaches hx hp hr

/-- At a ratio of 1.5 no rounding reaches the next integer. -/
theorem mint_within_bound_iff_three :
    MintsWithin (.newInt 3) ⟨1000000000000000001⟩ (.newDecWithPrec 150 2) :=
  (mint_within_bound_iff (.newInt 3) ⟨1000000000000000001⟩ (.newDecWithPrec 150 2) (by decide)
    (by decide) (by decide)).mpr (.inr (by decide))

/-- One unit of the chain's own collateral, priced a step below two, mints one
coin although the ratio of two asks for more. -/
theorem coin_above_bound :
    (run step (genesis devnet treasury) [priced 1999999999999999999]).assets.get (assetKey "uzytc") =
        some ⟨"uzytc", "ZYTC", .newDecWithPrec 200 2, .newDecWithPrec 150 2, true⟩ ∧
      (run step (genesis devnet treasury) [priced 1999999999999999999]).twaps.get "twap/uzytc" =
        some ⟨"uzytc", ⟨1999999999999999999⟩, 0, 0, 1⟩ ∧
      (aliceAsks (.newInt 1) (.newInt 1)).validateBasic devnet
          (run step (genesis devnet treasury) [priced 1999999999999999999]) =
        .ok () (run step (genesis devnet treasury) [priced 1999999999999999999]) ∧
      (∃ t, mintZYTD block (aliceAsks (.newInt 1) (.newInt 1))
        (run step (genesis devnet treasury) [priced 1999999999999999999]) = .ok (.newInt 1) t) ∧
      ¬ ((1 : ℤ) * (Dec.newDecWithPrec 200 2).value ≤ (1 : ℤ) * (⟨1999999999999999999⟩ : Dec).value) := by
  refine ⟨by decide +kernel, by decide +kernel, aliceAsks_valid (by decide) (by decide) _,
    returned_iff.mp (by decide +kernel), ?_⟩
  rw [Dec.mul_value_le_iff]
  decide

end Zytherion.MintBound
