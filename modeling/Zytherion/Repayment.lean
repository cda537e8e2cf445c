import Zytherion.SecuredDebt

/-!
# Repaying and liquidating

A burn is to take coins out of circulation, lower the debt in every ledger and
give collateral back; a liquidation is to close a position worth too little.
Both ask the vault for collateral before they lower the position's debt, and the
vault refuses to unlock while there is debt. In no state that a run reaches does
either of them return, so neither ever does what it is for.
-/
namespace Zytherion.Repayment

open GoCall KeyedStore SdkMath Application ChainState Bank CollateralKeeper StablecoinKeeper
open CollateralMsgServer StablecoinMsgServer Chain DebtLedgers Devnet SecuredDebt

/-- A burn of `n` by an account that holds that much and has as much recorded debt. -/
structure Repayable {A : App} (ctx : Ctx A) (msg : MsgBurnZYTD) (s : State) (sender : AccAddress)
    (n : SdkInt) (record : MintRecord) : Prop where
  valid : msg.validateBasic A s = .ok () s
  parsed : A.accAddressFromBech32 msg.sender = .ok sender
  amount : msg.zytdAmount = some n
  signed : verifyZYTDPQCSig ctx sender msg.ibcDenom msg.expirationBlockHeight msg.dilithium5PubKey
    msg.dilithium5Sig s = .ok () s
  funded : n.val ≤ s.held zytdDenom sender
  recorded : s.records.get (mintRecordKey A sender msg.ibcDenom) = some record
  within : n.val ≤ record.minted.val

/-- `n` was repaid and `returned` of the collateral given back. -/
structure Repaid (A : App) (s t : State) (sender : AccAddress) (d : String) (n returned : ℤ) :
    Prop where
  burned : (t.supply zytdDenom).val = (s.supply zytdDenom).val - n
  taken : t.held zytdDenom sender = s.held zytdDenom sender - n
  record : recordedDebt A t sender d = recordedDebt A s sender d - n
  position : positionDebt A t sender d = positionDebt A s sender d - n
  counter : (totalSupplyOf t).val = (totalSupplyOf s).val - n
  received : t.held d sender = s.held d sender + returned
  released : t.held d (vault A) = s.held d (vault A) - returned
  closed : n = recordedDebt A s sender d → returned = (bookOf A s (sender, d)).amount ∧
    t.records.get (mintRecordKey A sender d) = none ∧
    t.positions.get (positionKey A sender d) = none

/-- The burn returns and did what it is for. -/
def Repays {A : App} (ctx : Ctx A) (msg : MsgBurnZYTD) (s : State) (sender : AccAddress)
    (n : SdkInt) : Prop :=
  ∃ returned t, burnZYTD ctx msg s = .ok returned t ∧
    Repaid A s t sender msg.ibcDenom n.val returned.val

/-- Value over debt, as liquidation compares it with the threshold. -/
def collateralRatio (amount minted : SdkInt) (twap : Dec) : Checked Dec := do
  let collateralUSD ← collateralValue amount twap
  collateralUSD.quo (Dec.ofInt minted)

/-- The position of `target` is in debt and worth less than its threshold, and
`liquidator` holds the coins to repay it. -/
structure Liquidatable {A : App} (ctx : Ctx A) (msg : MsgLiquidate) (s : State)
    (liquidator target : AccAddress) (pos : CollateralPosition) : Prop where
  liquidator_parsed : A.accAddressFromBech32 msg.liquidator = .ok liquidator
  target_parsed : A.accAddressFromBech32 msg.targetOwner = .ok target
  signed : verifyZYTDPQCSig ctx liquidator msg.ibcDenom msg.expirationBlockHeight
    msg.dilithium5PubKey msg.dilithium5Sig s = .ok () s
  found : s.positions.get (positionKey A target msg.ibcDenom) = some pos
  debt : 0 < pos.mintedZYTD.val
  unhealthy : ∃ asset twap ratio, s.assets.get (assetKey msg.ibcDenom) = some asset ∧
    s.twaps.get ("twap/" ++ msg.ibcDenom) = some twap ∧
    collateralRatio pos.amount pos.mintedZYTD twap.twap = .ok ratio ∧
    ratio.raw < asset.liquidationThreshold.raw
  funded : pos.mintedZYTD.val ≤ s.held zytdDenom liquidator

/-- The debt `n` of `target` was repaid by `liquidator` and is off the ledgers. -/
structure Closed (A : App) (s t : State) (liquidator target : AccAddress) (d : String) (n : ℤ) :
    Prop where
  burned : (t.supply zytdDenom).val = (s.supply zytdDenom).val - n
  taken : t.held zytdDenom liquidator = s.held zytdDenom liquidator - n
  position : positionDebt A t target d = 0
  record : t.records.get (mintRecordKey A target d) = none
  counter : (totalSupplyOf t).val = (totalSupplyOf s).val - n

def Liquidates {A : App} (ctx : Ctx A) (msg : MsgLiquidate) (s : State)
    (liquidator target : AccAddress) (n : ℤ) : Prop :=
  ∃ seized t, liquidate ctx msg s = .ok seized t ∧ Closed A s t liquidator target msg.ibcDenom n

/-- In no state of any run does a burn repay anything: it fails, and leaves the
state as it was. -/
theorem burn_never_repays (A : App) (b : BankGenesis) (events : List (Event A)) (ctx : Ctx A)
    (msg : MsgBurnZYTD) (sender : AccAddress) (n : SdkInt) (record : MintRecord)
    (h : Repayable ctx msg (run step (genesis A b) events) sender n record) :
    ¬ Repays ctx msg (run step (genesis A b) events) sender n ∧
      run step (genesis A b) (events ++ [.burn ctx msg]) = run step (genesis A b) events := by
  have hagree := (run_ledgers A b events).agree
  obtain ⟨-, n', hn', hpos⟩ := MsgBurnZYTD.validateBasic_ok h.valid
  obtain rfl : n' = n := Option.some.inj (hn'.symm.trans h.amount)
  constructor
  · rintro ⟨returned, t, hburn, -⟩
    exact burnZYTD_fails hagree hn' hpos returned hburn
  · rw [run_snoc]
    apply commit_of_not_ok
    intro u t hexec
    obtain ⟨_, m, returned, hv, hburn⟩ := handled_ok.mp hexec
    obtain ⟨rfl, -⟩ := MsgBurnZYTD.validateBasic_ok hv
    exact burnZYTD_fails hagree hn' hpos returned hburn

section Accepted
variable {A : App} {s : State}

theorem validateBasic_returns {msg : MsgBurnZYTD} {sender : AccAddress} {n : SdkInt}
    (ha : A.accAddressFromBech32 msg.sender = .ok sender) (hd : msg.ibcDenom ≠ "")
    (hn : msg.zytdAmount = some n) (hpos : 0 < n.val) (he : 0 < msg.expirationBlockHeight) :
    msg.validateBasic A s = .ok () s := by
  simp only [MsgBurnZYTD.validateBasic, bind_ok, address_ok, requireDenom, requireExpiration,
    require_ok, requirePositive_ok, bne_iff_ne, decide_eq_true_eq]
  exact ⟨sender, s, ⟨ha, rfl⟩, (), s, ⟨hd, rfl⟩, (), s, ⟨⟨n, hn, hpos⟩, rfl⟩, he, rfl⟩

end Accepted

def aliceRecord : MintRecord :=
  ⟨devnet.text alice, "uzytc", .newInt 500, ⟨1000000000000000000000⟩, 1⟩

theorem aliceMints_record :
    (run step (genesis devnet treasury) aliceMints).records.get (mintRecordKey devnet alice "uzytc") =
        some aliceRecord ∧
      (run step (genesis devnet treasury) aliceMints).held zytdDenom alice = 500 ∧
      (run step (genesis devnet treasury) aliceMints).pqcKeys.get (pqcKeyRegistryKey devnet alice) =
        none := by
  decide +kernel

def aliceBurns (n : SdkInt) : MsgBurnZYTD := ⟨devnet.text alice, "uzytc", some n, 5, [], []⟩

theorem aliceBurns_repayable (n : SdkInt) (hn : 0 < n.val) (hle : n.val ≤ 500) :
    Repayable block (aliceBurns n) (run step (genesis devnet treasury) aliceMints) alice n
      aliceRecord where
  valid := validateBasic_returns (devnet.accAddressFromBech32_text alice)
    (by show ("uzytc" : String) ≠ ""; decide) rfl hn (by show (0 : Int64) < 5; decide)
  parsed := devnet.accAddressFromBech32_text alice
  amount := rfl
  signed := verifyZYTDPQCSig_unregistered aliceMints_record.2.2 (by decide)
  funded := by
    rw [aliceMints_record.2.1]
    exact hle
  recorded := aliceMints_record.1
  within := hle

/-- `alice` has minted 500, holds all of it and cannot repay it. -/
theorem full_burn_fails :
    Repayable block (aliceBurns (.newInt 500)) (run step (genesis devnet treasury) aliceMints)
        alice (.newInt 500) aliceRecord ∧
      ¬ Repays block (aliceBurns (.newInt 500)) (run step (genesis devnet treasury) aliceMints)
        alice (.newInt 500) := by
  refine ⟨aliceBurns_repayable _ (by decide) (by decide), ?_⟩
  rintro ⟨returned, t, hburn, -⟩
  exact burnZYTD_fails (run_ledgers devnet treasury aliceMints).agree rfl (by decide) returned hburn

/-- Nor any part of it. -/
theorem partial_burn_fails :
    ¬ Repays block (aliceBurns (.newInt 100)) (run step (genesis devnet treasury) aliceMints) alice
        (.newInt 100) :=
  (burn_never_repays devnet treasury aliceMints block _ alice _ aliceRecord
    (aliceBurns_repayable (.newInt 100) (by decide) (by decide))).1

/-- In no state of any run does a liquidation close a position. -/
theorem liquidation_never_closes (A : App) (b : BankGenesis) (events : List (Event A)) (ctx : Ctx A)
    (msg : MsgLiquidate) (liquidator target : AccAddress) (pos : CollateralPosition)
    (h : Liquidatable ctx msg (run step (genesis A b) events) liquidator target pos) :
    ¬ Liquidates ctx msg (run step (genesis A b) events) liquidator target pos.mintedZYTD.val ∧
      (run step (genesis A b) (events ++ [.liquidate ctx msg])).positions.get
        (positionKey A target msg.ibcDenom) = some pos := by
  constructor
  · rintro ⟨seized, t, hliq, -⟩
    exact liquidate_fails ctx msg _ t seized hliq
  · rw [run_snoc, step, commit_of_not_ok]
    · exact h.found
    · intro u t hexec
      obtain ⟨_, m, seized, -, hliq⟩ := handled_ok.mp hexec
      exact liquidate_fails ctx msg m t seized hliq

/-- The price falls to 0.7 after `bob` has minted 1000 against 4000. -/
def priceFalls : List (Event devnet) :=
  aliceMints ++ [mints bob (.newInt 4000) (.newInt 1000), priced 700000000000000000]

def bobLiquidates : MsgLiquidate := ⟨devnet.text bob, devnet.text alice, "uzytc", 5, [], []⟩

theorem priceFalls_books :
    (run step (genesis devnet treasury) priceFalls).positions.get (positionKey devnet alice "uzytc") =
        some alicePosition ∧
      (run step (genesis devnet treasury) priceFalls).assets.get (assetKey "uzytc") =
        some ⟨"uzytc", "ZYTC", .newDecWithPrec 200 2, .newDecWithPrec 150 2, true⟩ ∧
      (run step (genesis devnet treasury) priceFalls).twaps.get "twap/uzytc" =
        some ⟨"uzytc", ⟨700000000000000000⟩, 0, 0, 1⟩ ∧
      (run step (genesis devnet treasury) priceFalls).held zytdDenom bob = 1000 ∧
      (run step (genesis devnet treasury) priceFalls).pqcKeys.get (pqcKeyRegistryKey devnet bob) =
        none := by
  decide +kernel

/-- The collateral of `alice` is worth 1.4 times the debt, where 1.5 is required. -/
theorem bobLiquidates_liquidatable :
    Liquidatable block bobLiquidates (run step (genesis devnet treasury) priceFalls) bob alice
      alicePosition := by
  obtain ⟨hpos, hasset, htwap, hheld, hkey⟩ := priceFalls_books
  refine ⟨devnet.accAddressFromBech32_text bob, devnet.accAddressFromBech32_text alice,
    verifyZYTDPQCSig_unregistered hkey (by decide), hpos, by decide,
    ⟨_, _, ⟨1400000000000000000⟩, hasset, htwap, ?_, ?_⟩, ?_⟩
  · decide +kernel
  · decide +kernel
  · rw [hheld]
    decide

theorem unhealthy_stays_open :
    Liquidatable block bobLiquidates (run step (genesis devnet treasury) priceFalls) bob alice
        alicePosition ∧
      ¬ Liquidates block bobLiquidates (run step (genesis devnet treasury) priceFalls) bob alice 500 := by
  refine ⟨bobLiquidates_liquidatable, ?_⟩
  rintro ⟨seized, t, hliq, -⟩
  exact liquidate_fails block bobLiquidates _ t seized hliq

theorem liquidation_keeps_position :
    (run step (genesis devnet treasury) (priceFalls ++ [.liquidate block bobLiquidates])).positions.get
      (positionKey devnet alice "uzytc") = some alicePosition :=
  (liquidation_never_closes devnet treasury priceFalls block bobLiquidates bob alice alicePosition
    bobLiquidates_liquidatable).2

end Zytherion.Repayment
