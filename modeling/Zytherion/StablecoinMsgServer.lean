import Zytherion.CollateralMsgServer
import Zytherion.StablecoinKeeper

/-!
# The stablecoin messages

Minting locks collateral and issues coins against it, burning takes coins back
and returns collateral, liquidation lets anybody close a position whose
collateral is worth too little. The amounts each of them computes are separate
definitions over the fixed-point numbers.

Burning and liquidating are cut before their last write, so that the value the
supply counter is about to be clamped from can be spoken of.
-/
namespace Zytherion.StablecoinMsgServer

open GoCall KeyedStore SdkMath Application ChainState Bank CollateralKeeper StablecoinKeeper
open CollateralMsgServer (deref)

structure MsgMintZYTD where
  sender : String
  ibcDenom : String
  collateralAmount : Option SdkInt
  requestedZytd : Option SdkInt
  expirationBlockHeight : Int64
  dilithium5PubKey : List UInt8
  dilithium5Sig : List UInt8

structure MsgBurnZYTD where
  sender : String
  ibcDenom : String
  zytdAmount : Option SdkInt
  expirationBlockHeight : Int64
  dilithium5PubKey : List UInt8
  dilithium5Sig : List UInt8

structure MsgLiquidate where
  liquidator : String
  targetOwner : String
  ibcDenom : String
  expirationBlockHeight : Int64
  dilithium5PubKey : List UInt8
  dilithium5Sig : List UInt8

structure MsgRegisterZYTDKey where
  sender : String
  dilithium5PubKey : List UInt8
  expirationBlockHeight : Int64

section Validation
variable (A : App)

def address (field text : String) : Exec AccAddress :=
  mapErr (.wrap ("invalid " ++ field ++ " address")) (ofExcept (A.accAddressFromBech32 text))

def requireDenom (ibcDenom : String) : Exec Unit :=
  require (ibcDenom != "") (.plain "ibc_denom cannot be empty")

/-- A missing amount fails like one that is not positive. -/
def requirePositive (amount : Option SdkInt) (e : Err) : Exec Unit :=
  require (amount.any SdkInt.isPositive) e

def requireExpiration (expiration : Int64) : Exec Unit :=
  require (decide (0 < expiration)) (.plain "expiration_block_height must be positive")

def MsgMintZYTD.validateBasic (msg : MsgMintZYTD) : Exec Unit := do
  let _ ← address A "sender" msg.sender
  requireDenom msg.ibcDenom
  requirePositive msg.collateralAmount (.plain "collateral_amount must be positive")
  requirePositive msg.requestedZytd errZeroMintAmount
  requireExpiration msg.expirationBlockHeight

def MsgBurnZYTD.validateBasic (msg : MsgBurnZYTD) : Exec Unit := do
  let _ ← address A "sender" msg.sender
  requireDenom msg.ibcDenom
  requirePositive msg.zytdAmount (.plain "zytd_amount must be positive")
  requireExpiration msg.expirationBlockHeight

def MsgLiquidate.validateBasic (msg : MsgLiquidate) : Exec Unit := do
  let _ ← address A "liquidator" msg.liquidator
  let _ ← address A "target_owner" msg.targetOwner
  requireDenom msg.ibcDenom
  requireExpiration msg.expirationBlockHeight

def dilithium5PubKeySize : ℕ := 2592

def MsgRegisterZYTDKey.validateBasic (msg : MsgRegisterZYTDKey) : Exec Unit := do
  let _ ← address A "sender" msg.sender
  require (msg.dilithium5PubKey.length == dilithium5PubKeySize)
    (.plain ("dilithium5_pub_key must be " ++ toString dilithium5PubKeySize ++ " bytes, got " ++
      toString msg.dilithium5PubKey.length))
  requireExpiration msg.expirationBlockHeight

end Validation

/-- The value of collateral at the price. -/
def collateralValue (amount : SdkInt) (twap : Dec) : Checked Dec := (Dec.ofInt amount).mul twap

/-- The most that may be minted against a value. -/
def maxMintable (collateralUSD minRatio : Dec) : Checked SdkInt := do
  let limit ← collateralUSD.quo minRatio
  limit.truncateInt

/-- A record that exists is added to and keeps its height. -/
def accumulateRecord (existing : Option MintRecord) (record : MintRecord) : Checked MintRecord :=
  match existing with
  | none => .ok record
  | some old => do
      let minted ← old.minted.add record.minted
      let collateralUSD ← old.collateralUSD.add record.collateralUSD
      return { record with
        minted := minted, collateralUSD := collateralUSD, mintedAt := old.mintedAt }

/-- The part of the debt a burn repays. -/
def burnRatio (zytdAmount minted : SdkInt) : Checked Dec := (Dec.ofInt zytdAmount).quo (Dec.ofInt minted)

/-- The collateral a burn gives back. -/
def returnAmount (ratio : Dec) (locked : SdkInt) : Checked SdkInt := do
  let share ← ratio.mulInt locked
  share.truncateInt

structure LiquidationAmounts where
  seized : SdkInt
  reward : SdkInt
  fee : SdkInt
deriving DecidableEq

/-- What a liquidation takes from the position, and how it divides it. -/
def liquidationAmounts (debt locked : SdkInt) (twap penalty liquidatorReward : Dec) :
    Checked LiquidationAmounts := do
  let debtInCollateral ← (Dec.ofInt debt).quo twap
  let factor ← Dec.one.add penalty
  let toSeize ← debtInCollateral.mul factor
  let collateralToSeize ← toSeize.truncateInt
  let seized := collateralToSeize.capAt locked
  let toReward ← debtInCollateral.mul liquidatorReward
  let reward ← toReward.truncateInt
  let reward := reward.capAt seized
  let fee ← seized.sub reward
  return ⟨seized, reward, fee⟩

/-- What a mint request comes to once it is accepted. -/
structure MintTerms where
  sender : AccAddress
  amount : SdkInt
  collateralUSD : Dec
  requested : SdkInt

section Handlers
variable {A : App} (ctx : Ctx A)

/-- Every check of a mint, up to the collateral limit. -/
def mintTerms (req : MsgMintZYTD) : Exec MintTerms := do
  let sender ← address A "sender" req.sender
  ofExcept (checkMintAllowed ctx.height)
  verifyZYTDPQCSig ctx sender req.ibcDenom req.expirationBlockHeight req.dilithium5PubKey
    req.dilithium5Sig
  let asset ← mapErr (.wrap "collateral asset not found") (getCollateralAsset req.ibcDenom)
  require asset.isActive (.plain ("collateral asset " ++ req.ibcDenom ++ " is not active"))
  let twap ← mapErr (fun _ => errOraclePriceUnavailable) (getTWAP req.ibcDenom)
  let amount ← deref req.collateralAmount
  let collateralUSD ← collateralValue amount twap.twap
  let limit ← maxMintable collateralUSD asset.minRatio
  let requested ← deref req.requestedZytd
  require (!requested.gt limit) errExceedsCollateralValue
  return ⟨sender, amount, collateralUSD, requested⟩

/-- The collateral is locked, the coins are issued to the sender and the position
is charged with them. -/
def lockAndIssue (ibcDenom : String) (terms : MintTerms) : Exec Unit := do
  mapErr (.wrap "lock collateral") (lockCollateral ctx terms.sender ibcDenom terms.amount)
  let coins ← newCoinsOf zytdDenom terms.requested
  mapErr (.wrap "mint ZYTD") (mintCoins A stablecoinName coins)
  mapErr (.wrap "send minted ZYTD to sender")
    (sendCoinsFromModuleToAccount ctx stablecoinName terms.sender coins)
  mapErr (.wrap "update minted ZYTD") (updateMintedZYTD A terms.sender ibcDenom terms.requested)

/-- The record and the supply counter follow. -/
def recordMint (req : MsgMintZYTD) (terms : MintTerms) : Exec Unit := do
  let existing ← attempt (getMintRecord A terms.sender req.ibcDenom)
  let record ← accumulateRecord existing
    ⟨req.sender, req.ibcDenom, terms.requested, terms.collateralUSD, ctx.height⟩
  setMintRecord A record
  let supply ← getTotalSupply
  let newSupply ← supply.add terms.requested
  setTotalSupply newSupply

/-- Returns the minted amount. -/
def mintZYTD (req : MsgMintZYTD) : Exec SdkInt := do
  let terms ← mintTerms ctx req
  lockAndIssue ctx req.ibcDenom terms
  recordMint ctx req terms
  -- the ratio is only reported in an event, but computing it may panic
  let _ ← terms.collateralUSD.quo (Dec.ofInt terms.requested)
  return terms.requested

/-- Coins of the stablecoin are taken from an account and burned. -/
def burnFrom (payer : AccAddress) (amount : SdkInt) (sendContext burnContext : String) :
    Exec Unit := do
  let coins ← newCoinsOf zytdDenom amount
  mapErr (.wrap sendContext) (sendCoinsFromAccountToModule ctx payer stablecoinName coins)
  mapErr (.wrap burnContext) (burnCoins ctx stablecoinName coins)

variable (A) in
/-- A record that is burned down to zero is removed. -/
def settleRecord (sender : AccAddress) (ibcDenom : String) (record : MintRecord) (newMinted : SdkInt)
    (ratio : Dec) : Exec Unit :=
  if newMinted.isZero then deleteMintRecord A sender ibcDenom
  else do
    let left ← Dec.one.sub ratio
    let collateralUSD ← record.collateralUSD.mul left
    setMintRecord A { record with minted := newMinted, collateralUSD := collateralUSD }

/-- A burn up to the new value of the supply counter, which it returns after the
collateral given back. -/
def burnBeforeSupply (req : MsgBurnZYTD) : Exec (SdkInt × SdkInt) := do
  let sender ← address A "sender" req.sender
  verifyZYTDPQCSig ctx sender req.ibcDenom req.expirationBlockHeight req.dilithium5PubKey
    req.dilithium5Sig
  let record ← mapErr (fun _ => errMintRecordNotFound) (getMintRecord A sender req.ibcDenom)
  let zytdAmount ← deref req.zytdAmount
  require (!zytdAmount.gt record.minted) errExceedsMintedAmount
  burnFrom ctx sender zytdAmount "send ZYTD to module" "burn ZYTD"
  let position ← mapErr (.wrap "get collateral position") (getPosition A sender req.ibcDenom)
  let ratio ← burnRatio zytdAmount record.minted
  let returned ← returnAmount ratio position.amount
  mapErr (.wrap "unlock collateral") (unlockCollateral ctx sender req.ibcDenom returned)
  mapErr (.wrap "update minted ZYTD") (updateMintedZYTD A sender req.ibcDenom zytdAmount.neg)
  let newMinted ← record.minted.sub zytdAmount
  settleRecord A sender req.ibcDenom record newMinted ratio
  let supply ← getTotalSupply
  let newSupply ← supply.sub zytdAmount
  return (returned, newSupply)

/-- Returns the collateral unlocked. -/
def burnZYTD (req : MsgBurnZYTD) : Exec SdkInt := do
  let (returned, newSupply) ← burnBeforeSupply ctx req
  setTotalSupply newSupply.clampNegative
  return returned

/-- The reward leaves the stablecoin module's account; a failed transfer is ignored. -/
def payReward (liquidator : AccAddress) (ibcDenom : String) (reward : SdkInt) : Exec Unit :=
  if reward.isPositive then do
    let coins ← newCoinsOf ibcDenom reward
    ignoreErr (sendCoinsFromModuleToAccount ctx stablecoinName liquidator coins)
  else pure ()

/-- So does the fee, provided the receiver is an address. -/
def payFee (receiver ibcDenom : String) (fee : SdkInt) : Exec Unit :=
  if fee.isPositive then
    match A.accAddressFromBech32 receiver with
    | .error _ => pure ()
    | .ok feeReceiver => do
        let coins ← newCoinsOf ibcDenom fee
        ignoreErr (sendCoinsFromModuleToAccount ctx stablecoinName feeReceiver coins)
  else pure ()

structure LiquidationTarget where
  liquidator : AccAddress
  targetOwner : AccAddress
  position : CollateralPosition
  twap : Dec

/-- Every check of a liquidation, up to the comparison with the threshold. -/
def liquidationTarget (req : MsgLiquidate) : Exec LiquidationTarget := do
  let liquidator ← address A "liquidator" req.liquidator
  let targetOwner ← address A "target_owner" req.targetOwner
  verifyZYTDPQCSig ctx liquidator req.ibcDenom req.expirationBlockHeight req.dilithium5PubKey
    req.dilithium5Sig
  let position ← mapErr (.wrap "get target position") (getPosition A targetOwner req.ibcDenom)
  let asset ← mapErr (.wrap "get collateral asset") (getCollateralAsset req.ibcDenom)
  let twap ← mapErr (fun _ => errOraclePriceUnavailable) (getTWAP req.ibcDenom)
  let value ← collateralValue position.amount twap.twap
  require (!position.mintedZYTD.isZero) errPositionHealthy
  let currentRatio ← value.quo (Dec.ofInt position.mintedZYTD)
  require (!currentRatio.gte asset.liquidationThreshold) errPositionHealthy
  return ⟨liquidator, targetOwner, position, twap.twap⟩

/-- A liquidation up to the new value of the supply counter, which it returns
after the collateral seized. -/
def liquidateBeforeSupply (req : MsgLiquidate) : Exec (SdkInt × SdkInt) := do
  let target ← liquidationTarget ctx req
  let params ← getParams
  let debt := target.position.mintedZYTD
  let amounts ← liquidationAmounts debt target.position.amount target.twap
    params.liquidationPenalty params.liquidatorReward
  burnFrom ctx target.liquidator debt "liquidator send ZYTD" "burn liquidated ZYTD"
  mapErr (.wrap "unlock seized collateral")
    (unlockCollateral ctx target.targetOwner req.ibcDenom amounts.seized)
  payReward ctx target.liquidator req.ibcDenom amounts.reward
  payFee ctx params.protocolFeeReceiver req.ibcDenom amounts.fee
  mapErr (.wrap "close liquidated position")
    (updateMintedZYTD A target.targetOwner req.ibcDenom debt.neg)
  deleteMintRecord A target.targetOwner req.ibcDenom
  let supply ← getTotalSupply
  let newSupply ← supply.sub debt
  return (amounts.seized, newSupply)

/-- Returns the collateral seized. -/
def liquidate (req : MsgLiquidate) : Exec SdkInt := do
  let (seized, newSupply) ← liquidateBeforeSupply ctx req
  setTotalSupply newSupply.clampNegative
  return seized

def hexDigit (n : ℕ) : Char := "0123456789abcdef".toList.getD n '0'

def hexEncode (bytes : List UInt8) : String :=
  String.ofList (bytes.flatMap fun b => [hexDigit (b.toNat / 16), hexDigit (b.toNat % 16)])

variable (A) in
/-- Returns the hash of the registered key. -/
def registerZYTDKey (req : MsgRegisterZYTDKey) : Exec String := do
  let sender ← address A "sender" req.sender
  setZYTDPQCKey A sender req.dilithium5PubKey
  return hexEncode (A.sha3Sum256 req.dilithium5PubKey)

end Handlers

/-- The value of collateral is exact. -/
theorem collateralValue_ok {x : SdkInt} {p usd : Dec} (h : collateralValue x p = .ok usd) :
    usd.raw = x.val * p.raw ∧ (x.val * p.raw).natAbs < decBound := by
  rw [collateralValue, Dec.mul_ok, Dec.chop_ofInt_mul] at h
  exact h

section Validated
variable {A : App} {s t : State} {u : Unit}

theorem address_ok {field text : String} {a : AccAddress} :
    address A field text s = .ok a t ↔ A.accAddressFromBech32 text = .ok a ∧ s = t := by
  simp [address]

theorem requirePositive_ok {amount : Option SdkInt} {e : Err} :
    requirePositive amount e s = .ok u t ↔ (∃ n, amount = some n ∧ 0 < n.val) ∧ s = t := by
  cases amount <;> simp [requirePositive]

theorem MsgMintZYTD.validateBasic_ok {msg : MsgMintZYTD} (h : msg.validateBasic A s = .ok u t) :
    s = t ∧ (∃ n, msg.collateralAmount = some n ∧ 0 < n.val) ∧
      ∃ n, msg.requestedZytd = some n ∧ 0 < n.val := by
  simp only [MsgMintZYTD.validateBasic, bind_ok, address_ok, requireDenom, requireExpiration,
    require_ok, requirePositive_ok] at h
  obtain ⟨_, _, ⟨-, rfl⟩, _, _, ⟨-, rfl⟩, _, _, ⟨hamount, rfl⟩, _, _, ⟨hrequested, rfl⟩, -, rfl⟩ := h
  exact ⟨rfl, hamount, hrequested⟩

theorem MsgBurnZYTD.validateBasic_ok {msg : MsgBurnZYTD} (h : msg.validateBasic A s = .ok u t) :
    s = t ∧ ∃ n, msg.zytdAmount = some n ∧ 0 < n.val := by
  simp only [MsgBurnZYTD.validateBasic, bind_ok, address_ok, requireDenom, requireExpiration,
    require_ok, requirePositive_ok] at h
  obtain ⟨_, _, ⟨-, rfl⟩, _, _, ⟨-, rfl⟩, _, _, ⟨hamount, rfl⟩, -, rfl⟩ := h
  exact ⟨rfl, hamount⟩

theorem MsgRegisterZYTDKey.validateBasic_ok {msg : MsgRegisterZYTDKey}
    (h : msg.validateBasic A s = .ok u t) : s = t := by
  simp only [MsgRegisterZYTDKey.validateBasic, bind_ok, address_ok, requireExpiration,
    require_ok] at h
  obtain ⟨_, _, ⟨-, rfl⟩, _, _, ⟨-, rfl⟩, -, rfl⟩ := h
  rfl

theorem registerZYTDKey_ok {msg : MsgRegisterZYTDKey} {r : String}
    (h : registerZYTDKey A msg s = .ok r t) : t = { s with pqcKeys := t.pqcKeys } := by
  simp only [registerZYTDKey, setZYTDPQCKey, bind_ok, address_ok, modifyStore_ok, pure_ok] at h
  obtain ⟨_, _, ⟨-, rfl⟩, _, _, rfl, -, rfl⟩ := h
  rfl

end Validated

section Debt
variable {A : App} {ctx : Ctx A} {s t : State}

theorem zytdDenom_valid : validateDenom zytdDenom = true := by decide

/-- Taking and burning coins touches no position. -/
theorem burnFrom_ok {payer : AccAddress} {n : SdkInt} {c₁ c₂ : String} {u : Unit}
    (h : burnFrom ctx payer n c₁ c₂ s = .ok u t) : 0 ≤ n.val ∧ t.positions = s.positions := by
  simp only [burnFrom, bind_ok, liftM_ok, newCoinsOf_ok, mapErr_ok] at h
  obtain ⟨_, _, ⟨⟨-, hn, rfl⟩, rfl⟩, _, m, hsend, hburn⟩ := h
  have hmodule := getModuleAddress_stablecoin A
  have hsent := sendCoinsFromAccountToModule_sent hmodule zytdDenom_valid hn hsend
  have hissued := burnCoins_issued hmodule zytdDenom_valid hn hburn
  exact ⟨hn, by rw [hissued.frame, hsent.frame]⟩

/-- A burn gets to the supply counter only over a position without debt. -/
theorem burnBeforeSupply_debtFree {req : MsgBurnZYTD} {r : SdkInt × SdkInt}
    (h : burnBeforeSupply ctx req s = .ok r t) :
    ∃ sender record n pos, A.accAddressFromBech32 req.sender = .ok sender ∧
      s.records.get (mintRecordKey A sender req.ibcDenom) = some record ∧
      req.zytdAmount = some n ∧ n.val ≤ record.minted.val ∧
      s.positions.get (positionKey A sender req.ibcDenom) = some pos ∧
      pos.mintedZYTD.val ≤ 0 := by
  simp only [burnBeforeSupply, bind_ok, address_ok, mapErr_ok, getMintRecord, lookup_ok, deref,
    liftM_ok, orPanic_ok, require_ok, Bool.not_eq_true', SdkInt.gt_eq_false] at h
  obtain ⟨sender, _, ⟨hsender, rfl⟩, _, _, hsig, record, _, ⟨hrecord, rfl⟩, n, _, ⟨hn, rfl⟩, _, _,
    ⟨hle, rfl⟩, _, m, hburn, _, _, hget, _, _, ⟨-, rfl⟩, _, _, ⟨-, rfl⟩, _, _, hunlock, -⟩ := h
  obtain rfl := verifyZYTDPQCSig_ok hsig
  obtain ⟨pos, hp, hdebt⟩ := unlockCollateral_debtFree hunlock
  simp only [getPosition, lookup_ok] at hget
  rw [← hget.2, (burnFrom_ok hburn).2] at hp
  exact ⟨sender, record, n, pos, hsender, hrecord, hn, hle, hp, hdebt⟩

/-- A position picked for liquidation is stored under its owner and carries debt. -/
theorem liquidationTarget_ok {req : MsgLiquidate} {target : LiquidationTarget}
    (h : liquidationTarget ctx req s = .ok target t) : s = t ∧
      s.positions.get (positionKey A target.targetOwner req.ibcDenom) = some target.position ∧
      target.position.mintedZYTD.val ≠ 0 := by
  simp only [liquidationTarget, bind_ok, address_ok, mapErr_ok, getPosition, getCollateralAsset,
    getTWAP, lookup_ok, liftM_ok, require_ok, Bool.not_eq_true', SdkInt.isZero_eq_false,
    pure_ok] at h
  obtain ⟨_, _, ⟨-, rfl⟩, _, _, ⟨-, rfl⟩, _, _, hsig, position, _, ⟨hp, rfl⟩, _, _, ⟨-, rfl⟩, _, _,
    ⟨-, rfl⟩, _, _, ⟨-, rfl⟩, _, _, ⟨hdebt, rfl⟩, _, _, ⟨-, rfl⟩, _, _, ⟨-, rfl⟩, rfl, rfl⟩ := h
  obtain rfl := verifyZYTDPQCSig_ok hsig
  exact ⟨rfl, hp, hdebt⟩

/-- A liquidation never gets to the supply counter: it has to pass both the
check that there is debt and the guard that there is none. -/
theorem liquidateBeforeSupply_fails (ctx : Ctx A) (req : MsgLiquidate) (s t : State)
    (r : SdkInt × SdkInt) : liquidateBeforeSupply ctx req s ≠ .ok r t := by
  intro h
  simp only [liquidateBeforeSupply, getParams, bind_ok, gets_ok, liftM_ok, mapErr_ok] at h
  obtain ⟨target, _, htarget, _, _, ⟨-, rfl⟩, _, _, ⟨-, rfl⟩, _, m, hburn, _, _, hunlock, -⟩ := h
  obtain ⟨rfl, hp, hdebt⟩ := liquidationTarget_ok htarget
  obtain ⟨hpos, hsame⟩ := burnFrom_ok hburn
  obtain ⟨pos, hp', hfree⟩ := unlockCollateral_debtFree hunlock
  rw [hsame, hp, Option.some.injEq] at hp'
  subst hp'
  omega

end Debt

/-- `sender` deposited `c` of `d` and was charged with `r` of new debt, which
the bank issued. -/
structure Charged {A : App} (ctx : Ctx A) (s t : State) (sender : AccAddress) (d : String)
    (c r : ℤ) : Prop where
  denom : validateDenom d = true
  deposit_nonneg : 0 ≤ c
  debt_nonneg : 0 ≤ r
  unblocked : A.blockedAddr sender = false
  position : ∃ v w : SdkInt, v.val = (positionOr ctx s sender d).amount.val + c ∧
    w.val = (positionOr ctx s sender d).mintedZYTD.val + r ∧ 0 ≤ w.val ∧
    t.positions = s.positions.set (positionKey A sender d)
      { positionOr ctx s sender d with amount := v, mintedZYTD := w }
  counter : ∃ w : SdkInt, w.val = (totalLocked s d).val + c ∧
    t.locked = s.locked.set (lockedKey d) w
  holding : ∀ e, t.held e (vault A) = s.held e (vault A) + if e = d then c else 0
  supply : (t.supply zytdDenom).val = (s.supply zytdDenom).val + r
  funded : Funded s → Funded t

/-- A mint that returned. -/
structure Minted {A : App} (ctx : Ctx A) (req : MsgMintZYTD) (s t : State) (terms : MintTerms) :
    Prop extends Charged ctx s t terms.sender req.ibcDenom terms.amount.val terms.requested.val where
  sender : A.accAddressFromBech32 req.sender = .ok terms.sender
  amount : req.collateralAmount = some terms.amount
  requested : req.requestedZytd = some terms.requested
  record : ∃ record : MintRecord, record.minted.val = Store.share (fun r => r.minted.val)
      (s.records.get (mintRecordKey A terms.sender req.ibcDenom)) + terms.requested.val ∧
    t.records = s.records.set (mintRecordKey A terms.sender req.ibcDenom) record
  totalSupply : (totalSupplyOf t).val = (totalSupplyOf s).val + terms.requested.val
  rest : t.assets = s.assets ∧ t.twaps = s.twaps ∧ t.params = s.params ∧ t.pqcKeys = s.pqcKeys

section Minting
variable {A : App} {ctx : Ctx A} {s t : State} {req : MsgMintZYTD} {terms : MintTerms}

theorem Charged.congr {m : State} {sender : AccAddress} {d : String} {c r : ℤ}
    (h : Charged ctx s m sender d c r) (hp : t.positions = m.positions) (hl : t.locked = m.locked)
    (hb : t.balances = m.balances) (hs : t.supply = m.supply) : Charged ctx s t sender d c r where
  denom := h.denom
  deposit_nonneg := h.deposit_nonneg
  debt_nonneg := h.debt_nonneg
  unblocked := h.unblocked
  position := by
    rw [hp]
    exact h.position
  counter := by
    rw [hl]
    exact h.counter
  holding := by
    simp only [State.held, hb]
    exact h.holding
  supply := by
    rw [hs]
    exact h.supply
  funded hf := (h.funded hf).congr hb hs

theorem mintTerms_ok (h : mintTerms ctx req s = .ok terms t) : s = t ∧
    A.accAddressFromBech32 req.sender = .ok terms.sender ∧
    req.collateralAmount = some terms.amount ∧ req.requestedZytd = some terms.requested ∧
    ∃ asset twap limit, s.assets.get (assetKey req.ibcDenom) = some asset ∧
      asset.isActive = true ∧ s.twaps.get ("twap/" ++ req.ibcDenom) = some twap ∧
      collateralValue terms.amount twap.twap = .ok terms.collateralUSD ∧
      maxMintable terms.collateralUSD asset.minRatio = .ok limit ∧
      terms.requested.val ≤ limit.val := by
  simp only [mintTerms, bind_ok, address_ok, ofExcept_ok, mapErr_ok, getCollateralAsset, getTWAP,
    lookup_ok, require_ok, deref, liftM_ok, orPanic_ok, Bool.not_eq_true', SdkInt.gt_eq_false,
    pure_ok] at h
  obtain ⟨sender, _, ⟨hsender, rfl⟩, _, _, ⟨-, rfl⟩, _, _, hsig, asset, _, ⟨hasset, rfl⟩, _, _,
    ⟨hactive, rfl⟩, twap, _, ⟨htwap, rfl⟩, amount, _, ⟨hamount, rfl⟩, usd, _, ⟨husd, rfl⟩, limit, _,
    ⟨hlimit, rfl⟩, requested, _, ⟨hrequested, rfl⟩, _, _, ⟨hle, rfl⟩, rfl, rfl⟩ := h
  obtain rfl := verifyZYTDPQCSig_ok hsig
  exact ⟨rfl, hsender, hamount, hrequested, asset, twap, limit, hasset, hactive, htwap, husd, hlimit,
    hle⟩

theorem lockAndIssue_ok {d : String} {u : Unit} (hk : Keyed A s)
    (h : lockAndIssue ctx d terms s = .ok u t) :
    Charged ctx s t terms.sender d terms.amount.val terms.requested.val ∧ t = { s with
      balances := t.balances, supply := t.supply, positions := t.positions, locked := t.locked } := by
  simp only [lockAndIssue, bind_ok, mapErr_ok, liftM_ok, newCoinsOf_ok] at h
  obtain ⟨_, m₁, hlock, _, _, ⟨⟨-, hr, rfl⟩, rfl⟩, _, m₂, hmint, _, m₃, hsend, hupdate⟩ := h
  have hdep := lockCollateral_ok hk hlock
  have hmodule := getModuleAddress_stablecoin A
  have hiss := mintCoins_issued hmodule zytdDenom_valid hr hmint
  obtain ⟨hfree, hsent⟩ := sendCoinsFromModuleToAccount_sent hmodule zytdDenom_valid hr hsend
  have hvault := ne_vault hfree
  obtain ⟨v, hv, hpos₁⟩ := hdep.position
  obtain ⟨howner, hdenom⟩ := hk.positionOr ctx terms.sender d
  -- issuing and sending leave the position as the deposit stored it
  have hpos₃ : m₃.positions = m₁.positions := by rw [hsent.frame, hiss.frame]
  have hk₃ : Keyed A m₃ := hk.put (some { positionOr ctx s terms.sender d with amount := v })
    (by rintro pos ⟨⟩; exact ⟨howner, hdenom⟩) (hpos₃.trans hpos₁)
  obtain ⟨pos, hdrawn⟩ := updateMintedZYTD_ok hk₃ hupdate
  have hfound := hdrawn.found
  rw [hpos₃, hpos₁, Store.get_set_self, Option.some.injEq] at hfound
  obtain ⟨w, hw, hw₀, hpos⟩ := hdrawn.debt
  rw [hpos₃, hpos₁, Store.set_set] at hpos
  subst hfound
  have hbal : t.balances = m₃.balances := by rw [hdrawn.frame]
  have hsupply : t.supply = m₂.supply := by rw [hdrawn.frame, hsent.frame]
  have hlocked : t.locked = m₁.locked := by rw [hdrawn.frame, hsent.frame, hiss.frame]
  have hsupply₁ : m₁.supply = s.supply := by rw [hdep.frame]
  refine ⟨⟨hdep.denom, hdep.nonneg, hr, hfree, ⟨v, w, hv, hw, hw₀, hpos⟩, ?_, ?_, ?_, ?_⟩, ?_⟩
  · rw [hlocked]
    exact hdep.counter
  · intro e
    have hheld : t.held e (vault A) = m₃.held e (vault A) := by simp only [State.held, hbal]
    rw [hheld, hsent.held_eq, hiss.held_eq, hdep.paid.held_eq]
    simp [hvault.symm, vault_ne_stablecoin A]
  · rw [hsupply, hiss.supply, hsupply₁]
  · intro hs
    have h₁ := hdep.paid.funded hs hdep.nonneg hsupply₁
    have h₃ := hsent.funded (hiss.funded h₁ hr) hr (by rw [hsent.frame])
    exact h₃.congr hbal (by rw [hdrawn.frame])
  · rw [hdrawn.frame, hsent.frame, hiss.frame, hdep.frame]

theorem accumulateRecord_ok {existing : Option MintRecord} {new record : MintRecord}
    (h : accumulateRecord existing new = .ok record) : record.owner = new.owner ∧
      record.ibcDenom = new.ibcDenom ∧
      record.minted.val = Store.share (fun r => r.minted.val) existing + new.minted.val := by
  cases existing with
  | none =>
      cases h
      exact ⟨rfl, rfl, (zero_add _).symm⟩
  | some old =>
      simp only [accumulateRecord, checked_bind_ok, SdkInt.add_ok, pure, Except.pure,
        Except.ok.injEq] at h
      obtain ⟨minted, hminted, usd, -, rfl⟩ := h
      exact ⟨rfl, rfl, hminted⟩

theorem mintZYTD_ok {r : SdkInt} (hk : Keyed A s) (h : mintZYTD ctx req s = .ok r t) :
    ∃ terms, mintTerms ctx req s = .ok terms s ∧ Minted ctx req s t terms := by
  simp only [mintZYTD, recordMint, bind_ok, getMintRecord, attempt_lookup_ok, liftM_ok,
    getTotalSupply, setTotalSupply, gets_ok, SdkInt.add_ok, modifyStore_ok, pure_ok] at h
  obtain ⟨terms, _, hterms, _, m, hissue, _, _, ⟨existing, _, ⟨hexisting, rfl⟩, record, _,
    ⟨hrecord, rfl⟩, _, _, hset, supply, _, ⟨hsupply, rfl⟩, newSupply, _, ⟨hnew, rfl⟩, rfl⟩, _, _,
    ⟨-, rfl⟩, -, rfl⟩ := h
  obtain ⟨rfl, hsender, hamount, hrequested, -⟩ := mintTerms_ok hterms
  obtain ⟨hc, hframe⟩ := lockAndIssue_ok hk hissue
  obtain ⟨howner, hdenom, hminted⟩ := accumulateRecord_ok hrecord
  rw [setMintRecord_ok (by rw [howner]; exact hsender)] at hset
  subst hset
  have hrecords : m.records = s.records := by rw [hframe]
  have htotal : m.totalSupply = s.totalSupply := by rw [hframe]
  refine ⟨terms, hterms, { hc.congr rfl rfl rfl rfl with
    sender := hsender, amount := hamount, requested := hrequested, record := ?_,
    totalSupply := ?_, rest := ?_ }⟩
  · refine ⟨record, ?_, ?_⟩
    · rw [hminted, ← hexisting, hrecords]
    · simp only [hrecords, hdenom]
  · show newSupply.val = _
    rw [hnew, ← hsupply]
    simp only [totalSupplyOf, htotal]
  · rw [hframe]
    exact ⟨rfl, rfl, rfl, rfl⟩

end Minting

end Zytherion.StablecoinMsgServer
