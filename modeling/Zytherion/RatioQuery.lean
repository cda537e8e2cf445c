import Zytherion.MintedHealth
import Zytherion.CallFrames

/-!
# The ratio query and the health check of a liquidation

`GetCollateralRatio` divides by the debt of the mint record, a liquidation by the
debt of the position. Without debt the query answers 999, or that there is no
record, where a liquidation calls the position healthy. In a run from default
genesis the two debts are the same and every threshold is far below 999, so that the
query tells whether a liquidation gets past its health check.
-/
namespace Zytherion.RatioQuery

open GoCall KeyedStore SdkMath Application ChainState Bank CollateralKeeper StablecoinKeeper
open CollateralMsgServer StablecoinMsgServer Chain DebtLedgers MintedHealth
open Devnet Repayment SecuredDebt

/-- What the query answers without debt. -/
def debtFreeRatio : Dec := .newDecWithPrec 999 0

def getCollateralRatio (A : App) (owner : AccAddress) (ibcDenom : String) : Exec Dec := do
  let record ← getMintRecord A owner ibcDenom
  if record.minted.isZero then return debtFreeRatio
  else
    let position ← mapErr (.wrap "get position") (getPosition A owner ibcDenom)
    let twap ← mapErr (fun _ => errOraclePriceUnavailable) (getTWAP ibcDenom)
    let collateralUSD ← collateralValue position.amount twap.twap
    collateralUSD.quo (Dec.ofInt record.minted)

/-- The query returns a ratio below the threshold. -/
def RatioBelow (A : App) (s : State) (owner : AccAddress) (d : String) (threshold : Dec) : Prop :=
  ∃ ratio t, getCollateralRatio A owner d s = .ok ratio t ∧ ratio.raw < threshold.raw

/-- The liquidator is an account and the signature is accepted: what a liquidation asks
before it looks at the position. -/
def Admitted {A : App} (ctx : Ctx A) (msg : MsgLiquidate) (s : State) (liquidator : AccAddress) :
    Prop :=
  A.accAddressFromBech32 msg.liquidator = .ok liquidator ∧
    verifyZYTDPQCSig ctx liquidator msg.ibcDenom msg.expirationBlockHeight msg.dilithium5PubKey
      msg.dilithium5Sig s = .ok () s

theorem defaultAssetStore_thresholds : ∀ asset ∈ defaultAssetStore.values,
    asset.liquidationThreshold.raw ≤ debtFreeRatio.raw := by
  decide +kernel

section Query
variable {A : App} {s : State} {owner : AccAddress} {d : String} {pos : CollateralPosition}
  {twap : TWAPData} {threshold : Dec}

/-- With a record the query divides by the recorded debt, unless that is zero. -/
theorem ratioBelow_iff {record : MintRecord}
    (hrecord : s.records.get (mintRecordKey A owner d) = some record)
    (hpos : s.positions.get (positionKey A owner d) = some pos)
    (htwap : s.twaps.get ("twap/" ++ d) = some twap)
    (hthreshold : threshold.raw ≤ debtFreeRatio.raw) :
    RatioBelow A s owner d threshold ↔ record.minted.val ≠ 0 ∧
      ∃ value ratio, collateralValue pos.amount twap.twap = .ok value ∧
        value.quo (Dec.ofInt record.minted) = .ok ratio ∧ ratio.raw < threshold.raw := by
  unfold RatioBelow
  simp only [getCollateralRatio, getMintRecord, bind_ok, lookup_ok, hrecord, Option.some.injEq]
  constructor
  · rintro ⟨ratio, t, ⟨_, _, ⟨rfl, rfl⟩, h⟩, hbelow⟩
    split_ifs at h with hzero
    · obtain ⟨rfl, -⟩ := (pure_ok _ _).mp h
      exact absurd hbelow (not_lt.mpr hthreshold)
    · simp only [getPosition, getTWAP, bind_ok, mapErr_ok, lookup_ok, liftM_ok] at h
      obtain ⟨pos', _, ⟨hpos', rfl⟩, twap', _, ⟨htwap', rfl⟩, value, _, ⟨hvalue, rfl⟩, hratio,
        -⟩ := h
      obtain rfl : pos = pos' := Option.some.inj (hpos.symm.trans hpos')
      obtain rfl : twap = twap' := Option.some.inj (htwap.symm.trans htwap')
      exact ⟨fun h0 => hzero (SdkInt.isZero_iff.mpr h0), value, ratio, hvalue, hratio, hbelow⟩
  · rintro ⟨hdebt, value, ratio, hvalue, hratio, hbelow⟩
    refine ⟨ratio, s, ⟨record, s, ⟨rfl, rfl⟩, ?_⟩, hbelow⟩
    rw [if_neg (fun h => hdebt (SdkInt.isZero_iff.mp h))]
    simp only [getPosition, getTWAP, bind_ok, mapErr_ok, lookup_ok, liftM_ok]
    exact ⟨pos, s, ⟨hpos, rfl⟩, twap, s, ⟨htwap, rfl⟩, value, s, ⟨hvalue, rfl⟩, hratio, rfl⟩

theorem not_ratioBelow_of_no_record
    (hrecord : s.records.get (mintRecordKey A owner d) = none) :
    ¬ RatioBelow A s owner d threshold := by
  rintro ⟨ratio, t, h, -⟩
  simp only [getCollateralRatio, getMintRecord, bind_ok, lookup_ok, hrecord] at h
  obtain ⟨_, _, ⟨h, -⟩, -⟩ := h
  cases h

/-- Where the ledgers agree, the query finds a ratio below the threshold exactly if the
comparison of a liquidation does. -/
theorem healthy_false_iff (hagree : Agree A s)
    (hpos : s.positions.get (positionKey A owner d) = some pos)
    (htwap : s.twaps.get ("twap/" ++ d) = some twap)
    (hthreshold : threshold.raw ≤ debtFreeRatio.raw) :
    healthy pos threshold twap.twap = .ok false ↔ RatioBelow A s owner d threshold := by
  have hdebts : Store.share (fun r => r.minted.val) (s.records.get (mintRecordKey A owner d)) =
      pos.mintedZYTD.val := by
    have h := hagree owner d
    rw [recordedDebt, positionDebt, hpos] at h
    exact h
  have hgte : ∀ ratio : Dec, false = ratio.gte threshold ↔ ratio.raw < threshold.raw := by
    intro ratio
    rw [eq_comm, Dec.gte, decide_eq_false_iff_not, not_le]
  cases hrecord : s.records.get (mintRecordKey A owner d) with
  | none =>
      rw [hrecord] at hdebts
      have hzero : pos.mintedZYTD.val = 0 := hdebts.symm
      rw [iff_false_right (not_ratioBelow_of_no_record hrecord), healthy_ok]
      rintro ⟨value, -, ⟨-, h⟩ | ⟨hdebt, -⟩⟩
      · cases h
      · exact hdebt hzero
  | some record =>
      rw [hrecord] at hdebts
      have hminted : record.minted = pos.mintedZYTD := SdkInt.ext_val hdebts
      rw [ratioBelow_iff hrecord hpos htwap hthreshold, hminted, healthy_ok]
      constructor
      · rintro ⟨value, hvalue, ⟨-, h⟩ | ⟨hdebt, ratio, hratio, hbelow⟩⟩
        · cases h
        · exact ⟨hdebt, value, ratio, hvalue, hratio, (hgte ratio).mp hbelow⟩
      · rintro ⟨hdebt, value, ratio, hvalue, hratio, hbelow⟩
        exact ⟨value, hvalue, .inr ⟨hdebt, ratio, hratio, (hgte ratio).mpr hbelow⟩⟩

end Query

/-! What a liquidation answers. -/

section Answers
variable {A : App} (ctx : Ctx A) (msg : MsgLiquidate)

/-- The answer of the health check: healthy positions are refused, and an overflow of the
comparison is a panic. -/
def checkAnswer (target : LiquidationTarget) (s : State) :
    Checked Bool → Outcome State Err LiquidationTarget
  | .error reason => .panic reason
  | .ok true => .err errPositionHealthy s
  | .ok false => .ok target s

/-- What fails after the health check does not call the position healthy. -/
theorem liquidate_after_check : ∃ rest : LiquidationTarget → Exec SdkInt,
    liquidate ctx msg = liquidationTarget ctx msg >>= rest ∧
      ∀ target, Raises (· ≠ errPositionHealthy) (rest target) := by
  have hwrap : ∀ context e, Err.wrap context e ≠ errPositionHealthy := fun _ _ h => by cases h
  have hfee : ∀ receiver fee, Raises (· ≠ errPositionHealthy)
      (payFee ctx receiver msg.ibcDenom fee) := fun receiver fee => by
    unfold payFee
    refine .ite ?_ (.pure _)
    cases A.accAddressFromBech32 receiver with
    | error e => exact .pure _
    | ok feeReceiver => exact .bind (.liftM _) fun _ => .ignoreErr _
  simp only [liquidate, liquidateBeforeSupply, bind_assoc_call]
  refine ⟨_, rfl, fun target => ?_⟩
  exact .bind (.gets _) fun _ => .bind (.liftM _) fun _ =>
    .bind (.bind (.liftM _) fun _ => .bind (.mapErr (hwrap _) _) fun _ => .mapErr (hwrap _) _)
    fun _ => .bind (.mapErr (hwrap _) _) fun _ =>
    .bind (.ite (.bind (.liftM _) fun _ => .ignoreErr _) (.pure _)) fun _ =>
    .bind (hfee _ _) fun _ => .bind (.mapErr (hwrap _) _) fun _ => .bind (.modifyStore _) fun _ =>
    .bind (.gets _) fun _ => .bind (.liftM _) fun _ => .bind (.pure _) fun _ =>
    .bind (.modifyStore _) fun _ => .pure _

variable {ctx msg} {s : State} {liquidator owner : AccAddress} {pos : CollateralPosition}
  {asset : CollateralAsset} {twap : TWAPData}

theorem checkAnswer_ok {target target' : LiquidationTarget} {t : State} {answer : Checked Bool}
    (h : checkAnswer target s answer = .ok target' t) : answer = .ok false := by
  cases answer with
  | error reason => cases h
  | ok b =>
      cases b with
      | true => cases h
      | false => rfl

theorem admitted_of_target {target : LiquidationTarget} {t : State}
    (h : liquidationTarget ctx msg s = .ok target t) :
    ∃ liquidator, Admitted ctx msg s liquidator := by
  simp only [liquidationTarget, bind_ok, address_ok] at h
  obtain ⟨liquidator, _, ⟨hliquidator, rfl⟩, _, _, ⟨-, rfl⟩, _, _, hsig, -⟩ := h
  obtain rfl := verifyZYTDPQCSig_ok hsig
  exact ⟨liquidator, hliquidator, hsig⟩

theorem liquidationTarget_eq (hadmitted : Admitted ctx msg s liquidator)
    (howner : A.accAddressFromBech32 msg.targetOwner = .ok owner)
    (hpos : s.positions.get (positionKey A owner msg.ibcDenom) = some pos)
    (hasset : s.assets.get (assetKey msg.ibcDenom) = some asset)
    (htwap : s.twaps.get ("twap/" ++ msg.ibcDenom) = some twap) :
    liquidationTarget ctx msg s = checkAnswer ⟨liquidator, owner, pos, twap.twap⟩ s
      (healthy pos asset.liquidationThreshold twap.twap) := by
  obtain ⟨hliquidator, hsig⟩ := hadmitted
  have hposition : mapErr (.wrap "get target position") (getPosition A owner msg.ibcDenom) s =
      .ok pos s := (mapErr_ok ..).mpr ((lookup_ok ..).mpr ⟨hpos, rfl⟩)
  have hlisted : mapErr (.wrap "get collateral asset") (getCollateralAsset msg.ibcDenom) s =
      .ok asset s := (mapErr_ok ..).mpr ((lookup_ok ..).mpr ⟨hasset, rfl⟩)
  have hprice : mapErr (fun _ => errOraclePriceUnavailable) (getTWAP msg.ibcDenom) s =
      .ok twap s := (mapErr_ok ..).mpr ((lookup_ok ..).mpr ⟨htwap, rfl⟩)
  rw [liquidationTarget, bind_of_ok (address_ok.mpr ⟨hliquidator, rfl⟩),
    bind_of_ok (address_ok.mpr ⟨howner, rfl⟩), bind_of_ok hsig, bind_of_ok hposition,
    bind_of_ok hlisted, bind_of_ok hprice]
  rw [healthy]
  cases hvalue : collateralValue pos.amount twap.twap with
  | error reason => rfl
  | ok value =>
      rw [checked_ok_bind, bind_of_ok ((liftM_ok _).mpr ⟨rfl, rfl⟩)]
      cases hzero : pos.mintedZYTD.isZero with
      | true => rfl
      | false =>
          rw [if_neg Bool.false_ne_true, Bool.not_false,
            bind_of_ok ((require_ok true errPositionHealthy ()).mpr ⟨rfl, rfl⟩)]
          cases hratio : value.quo (Dec.ofInt pos.mintedZYTD) with
          | error reason => rfl
          | ok ratio =>
              rw [checked_ok_bind, bind_of_ok ((liftM_ok _).mpr ⟨rfl, rfl⟩)]
              cases hbelow : ratio.gte asset.liquidationThreshold with
              | true => rfl
              | false => rfl

/-- A liquidation that is admitted gets past its health check exactly if the comparison
says so, and calls the position healthy exactly if the comparison does. -/
theorem liquidate_answers (hadmitted : Admitted ctx msg s liquidator)
    (howner : A.accAddressFromBech32 msg.targetOwner = .ok owner)
    (hpos : s.positions.get (positionKey A owner msg.ibcDenom) = some pos)
    (hasset : s.assets.get (assetKey msg.ibcDenom) = some asset)
    (htwap : s.twaps.get ("twap/" ++ msg.ibcDenom) = some twap) :
    ((∃ t, liquidate ctx msg s = .err errPositionHealthy t) ↔
      healthy pos asset.liquidationThreshold twap.twap ≠ .ok false ∧
        (liquidate ctx msg s).panicked = false) := by
  obtain ⟨rest, hrest, hraises⟩ := liquidate_after_check ctx msg
  have hcheck := liquidationTarget_eq hadmitted howner hpos hasset htwap
  rw [hrest]
  cases hhealthy : healthy pos asset.liquidationThreshold twap.twap with
  | error reason =>
      rw [hhealthy] at hcheck
      have hpanic : (liquidationTarget ctx msg >>= rest) s = .panic reason :=
        bind_of_panic hcheck
      simp [hpanic, Outcome.panicked]
  | ok b =>
      cases b with
      | true =>
          rw [hhealthy] at hcheck
          have herr := (bind_err (liquidationTarget ctx msg) rest).mpr (.inl hcheck)
          simp [herr, Outcome.panicked]
      | false =>
          rw [hhealthy] at hcheck
          rw [bind_of_ok hcheck]
          refine iff_of_false ?_ (fun h => h.1 rfl)
          rintro ⟨t, h⟩
          exact hraises _ _ _ _ h rfl

end Answers

/-- In every state of a run from default genesis, for every position with an asset and a
stored price: a liquidation gets past its health check exactly if it is admitted and
the ratio query returns a ratio below the threshold of the asset. If it is admitted it
answers that the position is healthy in all other cases, unless an overflow makes it
panic. -/
theorem ratio_query_predicts_liquidation (A : App) (b : BankGenesis) (events : List (Event A))
    (ctx : Ctx A) (msg : MsgLiquidate) (owner : AccAddress) (pos : CollateralPosition)
    (asset : CollateralAsset) (twap : TWAPData)
    (howner : A.accAddressFromBech32 msg.targetOwner = .ok owner)
    (hpos : (run step (genesis A b) events).positions.get (positionKey A owner msg.ibcDenom) =
      some pos)
    (hasset : (run step (genesis A b) events).assets.get (assetKey msg.ibcDenom) = some asset)
    (htwap : (run step (genesis A b) events).twaps.get ("twap/" ++ msg.ibcDenom) = some twap) :
    ((∃ target t, liquidationTarget ctx msg (run step (genesis A b) events) = .ok target t) ↔
      (∃ liquidator, Admitted ctx msg (run step (genesis A b) events) liquidator) ∧
        RatioBelow A (run step (genesis A b) events) owner msg.ibcDenom
          asset.liquidationThreshold) ∧
    ∀ liquidator, Admitted ctx msg (run step (genesis A b) events) liquidator →
      ((∃ t, liquidate ctx msg (run step (genesis A b) events) = .err errPositionHealthy t) ↔
        ¬ RatioBelow A (run step (genesis A b) events) owner msg.ibcDenom
            asset.liquidationThreshold ∧
          (liquidate ctx msg (run step (genesis A b) events)).panicked = false) := by
  have hthreshold : asset.liquidationThreshold.raw ≤ debtFreeRatio.raw := by
    rw [run_assets] at hasset
    exact defaultAssetStore_thresholds asset ((Store.mem_values_iff _ _).mpr ⟨_, hasset⟩)
  have hbelow := healthy_false_iff (run_ledgers A b events).agree hpos htwap hthreshold
  constructor
  · constructor
    · rintro ⟨target, t, h⟩
      obtain ⟨liquidator, hadmitted⟩ := admitted_of_target h
      rw [liquidationTarget_eq hadmitted howner hpos hasset htwap] at h
      exact ⟨⟨liquidator, hadmitted⟩, hbelow.mp (checkAnswer_ok h)⟩
    · rintro ⟨⟨liquidator, hadmitted⟩, hratio⟩
      refine ⟨⟨liquidator, owner, pos, twap.twap⟩, run step (genesis A b) events, ?_⟩
      rw [liquidationTarget_eq hadmitted howner hpos hasset htwap, hbelow.mpr hratio]
      rfl
  · intro liquidator hadmitted
    rw [liquidate_answers hadmitted howner hpos hasset htwap, Ne, hbelow]

theorem priceFalls_ratio :
    (getCollateralRatio devnet alice "uzytc"
      (run step (genesis devnet treasury) priceFalls)).returned =
      some ⟨1400000000000000000⟩ := by
  decide +kernel

/-- The query answers 1.4 where 1.5 is required, and the liquidation gets past the check. -/
theorem priceFalls_predicted :
    RatioBelow devnet (run step (genesis devnet treasury) priceFalls) alice "uzytc"
        (.newDecWithPrec 150 2) ∧
      ∃ target t, liquidationTarget block bobLiquidates
        (run step (genesis devnet treasury) priceFalls) = .ok target t := by
  obtain ⟨hpos, hasset, htwap, -, hkey⟩ := priceFalls_books
  obtain ⟨t, hratio⟩ := returned_iff.mp priceFalls_ratio
  have hbelow : RatioBelow devnet (run step (genesis devnet treasury) priceFalls) alice "uzytc"
      (.newDecWithPrec 150 2) := ⟨_, t, hratio, by decide⟩
  refine ⟨hbelow, ?_⟩
  exact (ratio_query_predicts_liquidation devnet treasury priceFalls block bobLiquidates alice
    alicePosition _ _ (devnet.accAddressFromBech32_text alice) hpos hasset htwap).1.mpr
      ⟨⟨bob, devnet.accAddressFromBech32_text bob, verifyZYTDPQCSig_unregistered hkey (by decide)⟩,
        hbelow⟩

end Zytherion.RatioQuery
