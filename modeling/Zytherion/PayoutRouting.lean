import Zytherion.Seizure
import Zytherion.Repayment

/-!
# Where seized collateral goes

The payout of a liquidation on its own: the amounts, the release of the seized
collateral once the vault's debt guard is passed, then the reward and the fee.
The release pays the owner of the position, as for any withdrawal, and reward
and fee are taken from the stablecoin's account, which was given nothing. As soon
as anything is seized the owner ends up with it, so the coins reach the right
parties only when the seizure is zero: the position is empty, or debt and penalty
together are worth less than one unit of collateral.
-/
namespace Zytherion.PayoutRouting

open GoCall KeyedStore SdkMath HalfEven Application ChainState Bank CollateralKeeper
open StablecoinMsgServer Chain Seizure Repayment SecuredDebt Devnet

section Pipeline
variable {A : App} (ctx : Ctx A)

/-- The payout of the position `pos` of `target`, the debt guard taken as passed. -/
def payout (liquidator target : AccAddress) (ibcDenom : String) (pos : CollateralPosition)
    (twap : Dec) (params : StablecoinParams) : Exec LiquidationAmounts := do
  let amounts ← liquidationAmounts pos.mintedZYTD pos.amount twap params.liquidationPenalty
    params.liquidatorReward
  mapErr (.wrap "unlock seized collateral")
    (unlockAfterGuard ctx target ibcDenom amounts.seized pos)
  payReward ctx liquidator ibcDenom amounts.reward
  payFee ctx params.protocolFeeReceiver ibcDenom amounts.fee
  return amounts

/-- A receiver is named by its address or as a module account. -/
def Designates (A : App) (receiver : String) (a : AccAddress) : Prop :=
  A.accAddressFromBech32 receiver = .ok a ∨ A.getModuleAddress receiver = some a

/-- The state `t` after a payout of `amounts` from `s`, as it should be. -/
structure RightParties (A : App) (s t : State) (liquidator target : AccAddress) (d : String)
    (pos : CollateralPosition) (receiver : String) (amounts : LiquidationAmounts) : Prop where
  reward_nonneg : 0 ≤ amounts.reward.val
  reward_le : amounts.reward.val ≤ amounts.seized.val
  seized_le : amounts.seized.val ≤ pos.amount.val
  vault : t.held d (vault A) = s.held d (vault A) - amounts.seized.val
  liquidator : t.held d liquidator = s.held d liquidator + amounts.reward.val
  receiver : ∀ a, Designates A receiver a →
    t.held d a = s.held d a + (amounts.seized.val - amounts.reward.val)
  target : t.held d target ≤ s.held d target

end Pipeline

section Transfers
variable {A : App} {ctx : Ctx A} {s t : State} {d e : String} {n : SdkInt} {x a : AccAddress}
variable {u : Unit}

/-- A transfer out of a module account, ignored when it fails, takes from nobody else. -/
theorem ignored_send_keeps {name : String} {m : AccAddress} (hm : A.getModuleAddress name = some m)
    (hd : validateDenom d = true) (hn : 0 < n.val) (hx : x ≠ m)
    (h : ignoreErr (sendCoinsFromModuleToAccount ctx name a (coinsOf d n)) s = .ok u t) :
    s.held e x ≤ t.held e x := by
  rw [ignoreErr_ok] at h
  rcases h with ⟨_, h⟩ | ⟨err, h⟩
  · obtain ⟨-, hsent⟩ := sendCoinsFromModuleToAccount_sent hm hd hn.le h
    rw [hsent.held_eq, if_neg hx]
    split_ifs <;> omega
  · simp only [sendCoinsFromModuleToAccount, bind_err, liftM_err, liftM_ok, orPanic_ok, require_err,
      require_ok, false_or] at h
    obtain ⟨m', _, ⟨hm', rfl⟩, ⟨-, -, rfl⟩ | ⟨_, _, ⟨-, rfl⟩, hsend⟩⟩ := h
    · exact le_refl _
    · obtain rfl : m = m' := Option.some.inj (hm.symm.trans hm')
      exact (sendCoins_err hd hn hsend e hx).ge

theorem payReward_keeps (hx : x ≠ stablecoinAccount A) (h : payReward ctx a d n s = .ok u t) :
    s.held e x ≤ t.held e x := by
  unfold payReward at h
  split_ifs at h with hn
  · simp only [bind_ok, liftM_ok, newCoinsOf_ok] at h
    obtain ⟨_, _, ⟨⟨hd, -, rfl⟩, rfl⟩, hsend⟩ := h
    exact ignored_send_keeps (getModuleAddress_stablecoin A) hd (SdkInt.isPositive_iff.mp hn) hx hsend
  · obtain ⟨-, rfl⟩ := (pure_ok _ _).mp h
    exact le_refl _

theorem payFee_keeps {receiver : String} (hx : x ≠ stablecoinAccount A)
    (h : payFee ctx receiver d n s = .ok u t) : s.held e x ≤ t.held e x := by
  unfold payFee at h
  split_ifs at h with hn
  · cases hr : A.accAddressFromBech32 receiver with
    | error r =>
        simp only [hr, pure_ok] at h
        rw [h.2]
    | ok feeReceiver =>
        simp only [hr, bind_ok, liftM_ok, newCoinsOf_ok] at h
        obtain ⟨_, _, ⟨⟨hd, -, rfl⟩, rfl⟩, hsend⟩ := h
        exact ignored_send_keeps (getModuleAddress_stablecoin A) hd (SdkInt.isPositive_iff.mp hn) hx
          hsend
  · obtain ⟨-, rfl⟩ := (pure_ok _ _).mp h
    exact le_refl _

theorem putReduced_balances {owner : AccAddress} {pos : CollateralPosition}
    (h : putReduced A owner d pos s = .ok u t) : t.balances = s.balances := by
  unfold putReduced setPosition deletePosition at h
  split_ifs at h
  · rw [← (modifyStore_ok _ _).mp h]
  · cases ho : A.accAddressFromBech32 pos.owner with
    | error r =>
        simp only [ho, pure_ok] at h
        rw [h.2]
    | ok a =>
        simp only [ho, modifyStore_ok] at h
        rw [← h]

/-- Whatever the stored position looks like, a release pays its owner. -/
theorem unlockAfterGuard_paid {owner : AccAddress} {pos : CollateralPosition}
    (h : unlockAfterGuard ctx owner d n pos s = .ok u t) :
    A.blockedAddr owner = false ∧ Paid s t (vault A) owner d n.val := by
  simp only [unlockAfterGuard, releaseCollateral, getTotalLocked, setTotalLocked, bind_ok, require_ok,
    liftM_ok, newCoinsOf_ok, mapErr_ok, gets_ok, modifyStore_ok] at h
  obtain ⟨_, _, ⟨_, _, ⟨-, rfl⟩, _, _, ⟨⟨hd, hn, rfl⟩, rfl⟩, _, m, hsend, _, _, ⟨-, rfl⟩, _, m', hput,
    _, _, ⟨-, rfl⟩, -, rfl⟩, rfl⟩ := h
  obtain ⟨hfree, hsent⟩ := sendCoinsFromModuleToAccount_sent (getModuleAddress_vault A) hd hn hsend
  have hbal := putReduced_balances hput
  exact ⟨hfree, hsent.toPaid.congr (by exact hbal)⟩

end Transfers

/-- The most steps of collateral that, with the penalty, round to less than one unit. -/
def dustSteps (penalty : ℤ) : ℤ := (precision * precision - precision / 2 - 1) / (precision + penalty)

/-- Debt and penalty together come to less than one unit of collateral: the debt
over the price rounds to at most `dustSteps`. -/
def Dust (debt price penalty : ℤ) : Prop :=
  debt * precision * (precision * precision) <
    (dustSteps penalty * precision + precision / 2 + if dustSteps penalty % 2 = 0 then 1 else 0) * price

instance (debt price penalty : ℤ) : Decidable (Dust debt price penalty) :=
  inferInstanceAs (Decidable (_ < _))

section Dust
variable {debt price penalty amount : ℤ}

theorem portion_eq_zero_iff (ha : 0 ≤ amount) (hpen : 0 ≤ penalty) :
    portion amount (precision + penalty) = 0 ↔ amount ≤ dustSteps penalty := by
  have hE := precision_pos
  have hF : 0 < precision + penalty := by omega
  have hnonneg := portion_nonneg ha hF.le
  have hone : portion amount (precision + penalty) < 1 ↔
      halfEven precision (amount * (precision + penalty)) ≤ precision - 1 := by
    rw [portion, Int.ediv_lt_iff_lt_mul hE]
    omega
  rw [show portion amount (precision + penalty) = 0 ↔ portion amount (precision + penalty) < 1 by omega,
    hone, halfEven_le_iff hE, dustSteps, Int.le_ediv_iff_mul_le hF]
  generalize amount * (precision + penalty) = product
  rw [precision_eq]
  omega

theorem inCollateral_le_iff (hp : 0 < price) :
    inCollateral debt price ≤ dustSteps penalty ↔ Dust debt price penalty := by
  rw [inCollateral, halfEven_le_iff precision_pos, Dust, ← Int.ediv_lt_iff_lt_mul hp]
  generalize debt * precision * (precision * precision) / price = quotient
  generalize dustSteps penalty = steps
  rw [precision_eq]
  split_ifs <;> omega

theorem seized_eq_zero_iff {locked reward : ℤ} {amounts : LiquidationAmounts} (hd : 0 ≤ debt)
    (hl : 0 ≤ locked) (hp : 0 < price) (hpen : 0 ≤ penalty)
    (h : Amounts debt locked price penalty reward amounts) :
    amounts.seized.val = 0 ↔ locked = 0 ∨ Dust debt price penalty := by
  have hcoll := inCollateral_nonneg hd hp
  have hportion := portion_nonneg hcoll (add_nonneg precision_pos.le hpen)
  rw [h.seized, ← inCollateral_le_iff hp, ← portion_eq_zero_iff hcoll hpen]
  omega

end Dust

section Payout
variable {A : App} {ctx : Ctx A} {s t : State} {liquidator target : AccAddress} {d : String}
variable {pos : CollateralPosition} {twap : Dec} {params : StablecoinParams}
variable {amounts : LiquidationAmounts}

/-- A payout in its three transfers. -/
theorem payout_ok (h : payout ctx liquidator target d pos twap params s = .ok amounts t) :
    liquidationAmounts pos.mintedZYTD pos.amount twap params.liquidationPenalty
        params.liquidatorReward = .ok amounts ∧
      A.blockedAddr target = false ∧ ∃ m₁ m₂, Paid s m₁ (vault A) target d amounts.seized.val ∧
      payReward ctx liquidator d amounts.reward m₁ = .ok () m₂ ∧
      payFee ctx params.protocolFeeReceiver d amounts.fee m₂ = .ok () t := by
  simp only [payout, bind_ok, liftM_ok, mapErr_ok, pure_ok] at h
  obtain ⟨_, _, ⟨hamounts, rfl⟩, _, m₁, hunlock, _, m₂, hreward, _, _, hfee, rfl, rfl⟩ := h
  obtain ⟨hfree, hpaid⟩ := unlockAfterGuard_paid hunlock
  exact ⟨hamounts, hfree, m₁, m₂, hpaid, hreward, hfee⟩

/-- The owner of the position receives what is seized and keeps it. -/
theorem payout_target (h : payout ctx liquidator target d pos twap params s = .ok amounts t) :
    s.held d target + amounts.seized.val ≤ t.held d target := by
  obtain ⟨-, hfree, m₁, m₂, hpaid, hreward, hfee⟩ := payout_ok h
  have hvault := ne_vault hfree
  have hstable := ne_stablecoin hfree
  calc s.held d target + amounts.seized.val = m₁.held d target := by
        rw [hpaid.held_eq, if_pos rfl, if_pos rfl, if_neg hvault, sub_zero]
    _ ≤ m₂.held d target := payReward_keeps hstable hreward
    _ ≤ t.held d target := payFee_keeps hstable hfee

/-- A payout of nothing moves nothing. -/
theorem payout_nothing (h : payout ctx liquidator target d pos twap params s = .ok amounts t)
    (hseized : amounts.seized.val = 0) (hreward : amounts.reward.val = 0)
    (hfee : amounts.fee.val = 0) (x : AccAddress) : t.held d x = s.held d x := by
  obtain ⟨-, -, m₁, m₂, hpaid, hrew, hfees⟩ := payout_ok h
  have hr : amounts.reward.isPositive = false := by
    rw [SdkInt.isPositive_eq_false]
    omega
  have hf : amounts.fee.isPositive = false := by
    rw [SdkInt.isPositive_eq_false]
    omega
  simp only [payReward, hr, Bool.false_eq_true, if_false, pure_ok, true_and] at hrew
  simp only [payFee, hf, Bool.false_eq_true, if_false, pure_ok, true_and] at hfees
  subst hrew hfees
  rw [hpaid.held_eq, hseized]
  split_ifs <;> omega

variable (ctx s liquidator target d) in
/-- A payout with these amounts either returned them or was rolled back. -/
theorem commit_payout (hamounts : liquidationAmounts pos.mintedZYTD pos.amount twap
      params.liquidationPenalty params.liquidatorReward = .ok amounts) :
    payout ctx liquidator target d pos twap params s =
        .ok amounts (commit (payout ctx liquidator target d pos twap params) s) ∨
      commit (payout ctx liquidator target d pos twap params) s = s := by
  rcases commit_cases (payout ctx liquidator target d pos twap params) s with ⟨am, h⟩ | ⟨-, h⟩
  · obtain ⟨hsame, -⟩ := payout_ok h
    obtain rfl : amounts = am := Except.ok.inj (hamounts.symm.trans hsame)
    exact .inl h
  · exact .inr h

/-- Whatever the balances are, the coins reach the right parties exactly when the
position is empty or the seizure is dust. -/
theorem payout_right_iff (ctx : Ctx A) (s : State) (liquidator target : AccAddress) (d : String)
    (pos : CollateralPosition) (twap : Dec) (params : StablecoinParams) (amounts : LiquidationAmounts)
    (hdebt : 0 ≤ pos.mintedZYTD.val) (hlocked : 0 ≤ pos.amount.val) (hprice : 0 < twap.raw)
    (hreward : 0 ≤ params.liquidatorReward.raw)
    (hpenalty : params.liquidatorReward.raw ≤ params.liquidationPenalty.raw)
    (hamounts : liquidationAmounts pos.mintedZYTD pos.amount twap params.liquidationPenalty
      params.liquidatorReward = .ok amounts) :
    RightParties A s (commit (payout ctx liquidator target d pos twap params) s) liquidator target d
        pos params.protocolFeeReceiver amounts ↔
      pos.amount.val = 0 ∨ Dust pos.mintedZYTD.val twap.raw params.liquidationPenalty.raw := by
  have hpen := hreward.trans hpenalty
  have ham := liquidationAmounts_ok hdebt hprice hpen hreward hamounts
  obtain ⟨hreward₀, hreward_le, hseized_le⟩ := ham.bounds hdebt hlocked hprice hpen hreward
  rw [← seized_eq_zero_iff hdebt hlocked hprice hpen ham]
  constructor
  · intro hright
    by_contra hne
    rcases commit_payout ctx s liquidator target d hamounts with h | h
    · -- the payout returned, and the owner holds what was seized
      have hrise := payout_target h
      have hfall := hright.target
      omega
    · -- it was rolled back, and the vault has lost nothing
      have hvault := hright.vault
      rw [h] at hvault
      omega
  · intro hzero
    have hnone : amounts.reward.val = 0 := by omega
    have hfee : amounts.fee.val = 0 := by
      rw [ham.fee, hzero, hnone, sub_zero]
    have hsame : ∀ x, (commit (payout ctx liquidator target d pos twap params) s).held d x =
        s.held d x := by
      intro x
      rcases commit_payout ctx s liquidator target d hamounts with h | h
      · exact payout_nothing h hzero hnone hfee x
      · rw [h]
    refine ⟨hreward₀, hreward_le, hseized_le, ?_, ?_, ?_, (hsame target).le⟩
    · rw [hsame, hzero, sub_zero]
    · rw [hsame, hnone, add_zero]
    · intro a _
      rw [hsame, hzero, hnone, sub_zero, add_zero]

end Payout

/-- A debt of one at price three seizes nothing. -/
theorem payout_right_iff_dust :
    RightParties devnet treasury.blank
      (commit (payout block bob alice "uzytc"
        ⟨devnet.text alice, "uzytc", .newInt 10, 0, .newInt 1⟩ ⟨3000000000000000000⟩
        defaultStablecoinParams) treasury.blank)
      bob alice "uzytc" ⟨devnet.text alice, "uzytc", .newInt 10, 0, .newInt 1⟩
      defaultStablecoinParams.protocolFeeReceiver ⟨.zero, .zero, .zero⟩ :=
  (payout_right_iff block treasury.blank bob alice "uzytc"
    ⟨devnet.text alice, "uzytc", .newInt 10, 0, .newInt 1⟩ ⟨3000000000000000000⟩
    defaultStablecoinParams ⟨.zero, .zero, .zero⟩ (by decide) (by decide) (by decide) (by decide)
    (by decide) (by decide +kernel)).mpr (.inr (by decide +kernel))

/-- When `bob` liquidates `alice` at a price of 0.7, the 785 seized go to `alice`
and `bob` gets nothing. -/
theorem seized_goes_to_owner :
    liquidationAmounts alicePosition.mintedZYTD alicePosition.amount ⟨700000000000000000⟩
        defaultStablecoinParams.liquidationPenalty defaultStablecoinParams.liquidatorReward =
      .ok ⟨.newInt 785, .newInt 57, .newInt 728⟩ ∧
      ¬ RightParties devnet (run step (genesis devnet treasury) priceFalls)
        (commit (payout block bob alice "uzytc" alicePosition ⟨700000000000000000⟩
          defaultStablecoinParams) (run step (genesis devnet treasury) priceFalls))
        bob alice "uzytc" alicePosition defaultStablecoinParams.protocolFeeReceiver
        ⟨.newInt 785, .newInt 57, .newInt 728⟩ := by
  refine ⟨by decide +kernel, fun hright => ?_⟩
  have hheld : (run step (genesis devnet treasury) priceFalls).held "uzytc" alice = 9000 ∧
      (commit (payout block bob alice "uzytc" alicePosition ⟨700000000000000000⟩
        defaultStablecoinParams) (run step (genesis devnet treasury) priceFalls)).held "uzytc" alice =
      9785 := by
    decide +kernel
  have htarget := hright.target
  rw [hheld.1, hheld.2] at htarget
  exact absurd htarget (by decide)

end Zytherion.PayoutRouting
