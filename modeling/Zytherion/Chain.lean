import Zytherion.StablecoinMsgServer

/-!
# Runs of the chain

Genesis initialises the vault and the stablecoin from their default genesis
states over any valid bank. From there messages arrive in any order from any
senders, in blocks of any height and time, and the oracle stores prices in
between. A message is validated, then handled; when either fails the state is
the one before the message.
-/
namespace Zytherion.Chain

open GoCall KeyedStore SdkMath Application ChainState Bank CollateralKeeper StablecoinKeeper
open CollateralMsgServer StablecoinMsgServer

/-- A position as a genesis file has it, where amounts may be missing. -/
structure GenesisPosition where
  owner : String
  ibcDenom : String
  amount : Option SdkInt
  lockedAt : Int64
  mintedZYTD : Option SdkInt

structure CollateralGenesis where
  collateralAssets : List CollateralAsset
  positions : List GenesisPosition

def defaultCollateralGenesis : CollateralGenesis := ⟨defaultCollateralAssets, []⟩

structure StablecoinGenesis where
  params : StablecoinParams
  mintRecords : List MintRecord
  totalSupply : String

def defaultStablecoinGenesis : StablecoinGenesis := ⟨defaultStablecoinParams, [], "0"⟩

section Genesis
variable (A : App)

def initAsset (asset : CollateralAsset) : Exec Unit :=
  must (fun e => "InitGenesis: failed to register collateral asset " ++ asset.ibcDenom ++ ": " ++ e.text)
    (registerCollateralAsset asset)

/-- A restored position adds its amount to the counter of its denomination. -/
def initPosition (p : GenesisPosition) : Exec Unit := do
  let amount := p.amount.getD .zero
  setPosition A ⟨p.owner, p.ibcDenom, amount, p.lockedAt, p.mintedZYTD.getD .zero⟩
  let existing ← getTotalLocked p.ibcDenom
  let total ← existing.add amount
  setTotalLocked p.ibcDenom total

def initCollateral (gs : CollateralGenesis) : Exec Unit := do
  gs.collateralAssets.forM initAsset
  gs.positions.forM (initPosition A)

/-- A total that is missing or does not parse counts as zero. -/
def genesisSupply (text : String) : SdkInt :=
  if text = "" then .zero else (A.newIntFromString text).getD .zero

def initStablecoin (gs : StablecoinGenesis) : Exec Unit := do
  setParams gs.params
  setTotalSupply (genesisSupply A gs.totalSupply)
  gs.mintRecords.forM (setMintRecord A)

def initGenesis : Exec Unit := do
  initCollateral A defaultCollateralGenesis
  initStablecoin A defaultStablecoinGenesis

def genesis (b : BankGenesis) : State := commit (initGenesis A) b.blank

/-- The whitelist as default genesis stores it. -/
def defaultAssetStore : Store String CollateralAsset :=
  defaultCollateralAssets.foldl (fun st asset => st.set (assetKey asset.ibcDenom) asset) ∅

theorem genesis_eq (b : BankGenesis) : genesis A b = { b.blank with
    assets := defaultAssetStore, params := some defaultStablecoinParams,
    totalSupply := some .zero } := by
  have hsupply : genesisSupply A "0" = .zero := by
    simp [genesisSupply, A.newIntFromString_zero]
  apply commit_ok (a := ())
  show initStablecoin A defaultStablecoinGenesis { b.blank with assets := defaultAssetStore } = _
  simp only [initStablecoin, defaultStablecoinGenesis, hsupply]
  rfl

end Genesis

/-- What may happen next: a price is stored, or a message is delivered in a block. -/
inductive Event (A : App) where
  | storeTWAP (data : TWAPData)
  | lock (ctx : Ctx A) (msg : MsgLockCollateral)
  | unlock (ctx : Ctx A) (msg : MsgUnlockCollateral)
  | mint (ctx : Ctx A) (msg : MsgMintZYTD)
  | burn (ctx : Ctx A) (msg : MsgBurnZYTD)
  | liquidate (ctx : Ctx A) (msg : MsgLiquidate)
  | register (msg : MsgRegisterZYTDKey)

section Runs
variable {A : App}

/-- Validation, then the handler, whose response is not part of the state. -/
def handled {α : Type} (validate : Exec Unit) (handler : Exec α) : Exec Unit := do
  validate
  let _ ← handler
  return ()

def Event.exec : Event A → Exec Unit
  | storeTWAP data => setTWAP data
  | lock ctx msg => handled (msg.validateBasic A) (msgLockCollateral ctx msg)
  | unlock ctx msg => handled (msg.validateBasic A) (msgUnlockCollateral ctx msg)
  | mint ctx msg => handled (msg.validateBasic A) (mintZYTD ctx msg)
  | burn ctx msg => handled (msg.validateBasic A) (burnZYTD ctx msg)
  | liquidate ctx msg => handled (msg.validateBasic A) (StablecoinMsgServer.liquidate ctx msg)
  | register msg => handled (msg.validateBasic A) (registerZYTDKey A msg)

/-- The account that signs the message. -/
def Event.signer : Event A → Option AccAddress
  | storeTWAP _ => none
  | lock _ msg => (A.accAddressFromBech32 msg.owner).toOption
  | unlock _ msg => (A.accAddressFromBech32 msg.owner).toOption
  | mint _ msg => (A.accAddressFromBech32 msg.sender).toOption
  | burn _ msg => (A.accAddressFromBech32 msg.sender).toOption
  | liquidate _ msg => (A.accAddressFromBech32 msg.liquidator).toOption
  | register msg => (A.accAddressFromBech32 msg.sender).toOption

def step (s : State) (e : Event A) : State := commit e.exec s

theorem handled_ok {α : Type} {validate : Exec Unit} {handler : Exec α} {s t : State} {u : Unit} :
    handled validate handler s = .ok u t ↔
      ∃ v m r, validate s = .ok v m ∧ handler m = .ok r t := by
  simp only [handled, bind_ok, pure_ok]
  constructor
  · rintro ⟨v, m, hv, r, _, hr, -, rfl⟩
    exact ⟨v, m, r, hv, hr⟩
  · rintro ⟨v, m, r, hv, hr⟩
    exact ⟨v, m, hv, r, t, hr, trivial, rfl⟩

end Runs

end Zytherion.Chain
