import Zytherion.CallFrames
import Zytherion.StablecoinMsgServer

/-!
# What the bank and the vault leave alone

Coins move in balances and supplies, collateral moves in positions and their
counters. Whatever a message does to the rest, it does by the stablecoin's or
the oracle's own writes. The frames hold in any state, whether or not its stores
are consistent.
-/
namespace Zytherion.VaultFrames

open GoCall KeyedStore SdkMath Application ChainState Bank CollateralKeeper StablecoinKeeper
open CollateralMsgServer StablecoinMsgServer

def outsideBank (s : State) : State :=
  { s with balances := fun _ _ => .zero, supply := fun _ => .zero }

/-- The stores neither the bank nor the vault's positions live in. -/
def outsideVault (s : State) : State := { outsideBank s with positions := ∅, locked := ∅ }

theorem outsideBank_positions {s t : State} (h : outsideBank t = outsideBank s) :
    t.positions = s.positions := by
  have hp := congrArg State.positions h
  exact hp

section Bank
variable {A : App} (ctx : Ctx A)

theorem setBalance_keeps (a : AccAddress) (c : Coin) : Keeps outsideBank (setBalance a c) :=
  .bind (.require _ _) fun _ => .modifyStore fun _ => rfl

theorem subUnlockedCoin_keeps (a : AccAddress) (c : Coin) :
    Keeps outsideBank (subUnlockedCoin ctx a c) :=
  .bind (.gets _) fun _ => .bind (.require _ _) fun _ => .bind (.liftM _) fun _ =>
    .bind (.require _ _) fun _ => .bind (.liftM _) fun _ => setBalance_keeps _ _

theorem subUnlockedCoins_keeps (a : AccAddress) (coins : List Coin) :
    Keeps outsideBank (subUnlockedCoins ctx a coins) :=
  .bind (.require _ _) fun _ => .forM (subUnlockedCoin_keeps ctx a) coins

theorem addCoin_keeps (a : AccAddress) (c : Coin) : Keeps outsideBank (addCoin a c) :=
  .bind (.gets _) fun _ => .bind (.liftM _) fun _ => setBalance_keeps _ _

theorem addCoins_keeps (a : AccAddress) (coins : List Coin) :
    Keeps outsideBank (addCoins a coins) :=
  .bind (.require _ _) fun _ => .forM (addCoin_keeps a) coins

theorem sendCoins_keeps (a b : AccAddress) (coins : List Coin) :
    Keeps outsideBank (sendCoins ctx a b coins) :=
  .bind (subUnlockedCoins_keeps ctx a coins) fun _ => addCoins_keeps b coins

theorem sendCoinsFromModuleToAccount_keeps (name : String) (a : AccAddress) (coins : List Coin) :
    Keeps outsideBank (sendCoinsFromModuleToAccount ctx name a coins) :=
  .bind (.liftM _) fun _ => .bind (.require _ _) fun _ => sendCoins_keeps ctx _ _ _

theorem sendCoinsFromAccountToModule_keeps (a : AccAddress) (name : String) (coins : List Coin) :
    Keeps outsideBank (sendCoinsFromAccountToModule ctx a name coins) :=
  .bind (.liftM _) fun _ => sendCoins_keeps ctx _ _ _

theorem addSupply_keeps (c : Coin) : Keeps outsideBank (addSupply c) :=
  .bind (.gets _) fun _ => .bind (.liftM _) fun _ => .modifyStore fun _ => rfl

theorem subSupply_keeps (c : Coin) : Keeps outsideBank (subSupply c) :=
  .bind (.gets _) fun _ => .bind (.liftM _) fun _ => .bind (.liftM _) fun _ =>
    .modifyStore fun _ => rfl

theorem burnCoins_keeps (name : String) (coins : List Coin) :
    Keeps outsideBank (burnCoins ctx name coins) :=
  .bind (.liftM _) fun acc => .bind (.liftM _) fun _ =>
    .bind (subUnlockedCoins_keeps ctx acc coins) fun _ => .forM subSupply_keeps coins

theorem mintCoins_keeps (name : String) (coins : List Coin) :
    Keeps outsideBank (mintCoins A name coins) :=
  .bind (.liftM _) fun acc => .bind (.liftM _) fun _ => .bind (addCoins_keeps acc coins) fun _ =>
    .forM addSupply_keeps coins

end Bank

section Vault
variable {A : App} (ctx : Ctx A) (owner : AccAddress) (d : String) (n : SdkInt)

theorem outsideVault_of_bank {α : Type} {x : Exec α} (hx : Keeps outsideBank x) :
    Keeps outsideVault x :=
  hx.map fun s => { s with positions := ∅, locked := ∅ }

theorem setPosition_keeps (pos : CollateralPosition) : Keeps outsideVault (setPosition A pos) := by
  unfold setPosition
  cases A.accAddressFromBech32 pos.owner with
  | error e => exact .pure _
  | ok owner => exact .modifyStore fun _ => rfl

theorem lockCollateral_keeps : Keeps outsideVault (lockCollateral ctx owner d n) := by
  refine .bind (.lookup _ _) fun asset => ?_
  refine .bind (.require _ _) fun _ => ?_
  refine .bind (.liftM _) fun coins => ?_
  have hsent := sendCoinsFromAccountToModule_keeps ctx owner vaultName coins
  refine .bind (.mapErr _ (outsideVault_of_bank hsent)) fun _ => ?_
  refine .bind (.attempt (.lookup _ _)) fun existing => ?_
  refine .bind (.liftM _) fun pos => ?_
  refine .bind (setPosition_keeps _) fun _ => ?_
  refine .bind (.gets _) fun total => ?_
  exact .bind (.liftM _) fun _ => .modifyStore fun _ => rfl

theorem releaseCollateral_keeps (pos : CollateralPosition) :
    Keeps outsideVault (releaseCollateral ctx owner d n pos) := by
  refine .bind (.require _ _) fun _ => ?_
  refine .bind (.liftM _) fun coins => ?_
  have hsent := sendCoinsFromModuleToAccount_keeps ctx vaultName owner coins
  refine .bind (.mapErr _ (outsideVault_of_bank hsent)) fun _ => ?_
  refine .bind (.liftM _) fun left => ?_
  have hreduced : ∀ p, Keeps outsideVault (putReduced A owner d p) := fun p =>
    .ite (.modifyStore fun _ => rfl) (setPosition_keeps p)
  exact .bind (hreduced _) fun _ => .bind (.gets _) fun _ => .liftM _

theorem unlockCollateral_keeps : Keeps outsideVault (unlockCollateral ctx owner d n) := by
  refine .bind (.lookup _ _) fun pos => ?_
  refine .bind (.require _ _) fun _ => ?_
  exact .bind (releaseCollateral_keeps ctx _ _ _ _) fun _ => .modifyStore fun _ => rfl

theorem updateMintedZYTD_keeps : Keeps outsideVault (updateMintedZYTD A owner d n) :=
  .bind (.lookup _ _) fun _ => .bind (.liftM _) fun _ => .bind (.require _ _) fun _ =>
    setPosition_keeps _

theorem validateFields_keeps (who denom : String) (amount : Option SdkInt) :
    Keeps outsideVault (validateFields A who denom amount) :=
  .bind (.mapErr _ (.ofExcept _)) fun _ => .bind (.require _ _) fun _ => .bind (.liftM _) fun _ =>
    .require _ _

theorem msgLockCollateral_keeps (msg : MsgLockCollateral) :
    Keeps outsideVault (msgLockCollateral ctx msg) := by
  refine .bind (.mapErr _ (.ofExcept _)) fun owner => ?_
  refine .bind (.liftM _) fun amount => ?_
  refine .bind (lockCollateral_keeps ctx _ _ _) fun _ => ?_
  exact .bind (.mapErr _ (.lookup _ _)) fun _ => .pure _

theorem msgUnlockCollateral_keeps (msg : MsgUnlockCollateral) :
    Keeps outsideVault (msgUnlockCollateral ctx msg) := by
  refine .bind (.mapErr _ (.ofExcept _)) fun owner => ?_
  refine .bind (.lookup _ _) fun pos => ?_
  refine .bind (.liftM _) fun amount => ?_
  refine .bind (unlockCollateral_keeps ctx _ _ _) fun _ => ?_
  exact .bind (.liftM _) fun _ => .pure _

end Vault

/-- What is left when the debt ledgers are put aside too: the whitelist, the
prices, the parameters and the registered keys. -/
def outsideDebt (s : State) : State := { outsideVault s with records := ∅, totalSupply := none }

theorem outsideDebt_read {s t : State} (h : outsideDebt t = outsideDebt s) :
    t.twaps = s.twaps ∧ t.pqcKeys = s.pqcKeys := by
  have htwaps := congrArg State.twaps h
  have hkeys := congrArg State.pqcKeys h
  exact ⟨htwaps, hkeys⟩

section Handlers
variable {A : App} (ctx : Ctx A)

private theorem outsideDebt_of_vault {α : Type} {x : Exec α} (hx : Keeps outsideVault x) :
    Keeps outsideDebt x :=
  hx.map fun s => { s with records := ∅, totalSupply := none }

theorem verifyZYTDPQCSig_keeps {γ : Type} (view : State → γ) (sender : AccAddress) (d : String)
    (expiration : Int64) (key sig : List UInt8) :
    Keeps view (verifyZYTDPQCSig ctx sender d expiration key sig) :=
  .bind (.attempt (.lookup _ _)) fun _ => .bind (.ofExcept _) fun _ =>
    .ite (.pure _) (.bind (.require _ _) fun _ => .require _ _)

theorem setMintRecord_keeps (record : MintRecord) : Keeps outsideDebt (setMintRecord A record) :=
  .modifyStore fun _ => rfl

theorem setTotalSupply_keeps (n : SdkInt) : Keeps outsideDebt (setTotalSupply n) :=
  .modifyStore fun _ => rfl

/-- The checks of a mint write nothing. -/
theorem mintTerms_keeps {γ : Type} (view : State → γ) (req : MsgMintZYTD) :
    Keeps view (mintTerms ctx req) := by
  refine .bind (.mapErr _ (.ofExcept _)) fun sender => ?_
  refine .bind (.ofExcept _) fun _ => ?_
  refine .bind (verifyZYTDPQCSig_keeps ctx _ _ _ _ _ _) fun _ => ?_
  refine .bind (.mapErr _ (.lookup _ _)) fun asset => ?_
  refine .bind (.require _ _) fun _ => ?_
  refine .bind (.mapErr _ (.lookup _ _)) fun twap => ?_
  -- the amounts are computed without a look at the state
  refine .bind (.liftM _) fun _ => .bind (.liftM _) fun _ => ?_
  refine .bind (.liftM _) fun _ => .bind (.liftM _) fun _ => ?_
  exact .bind (.require _ _) fun _ => .pure _

theorem lockAndIssue_keeps (d : String) (terms : MintTerms) :
    Keeps outsideVault (lockAndIssue ctx d terms) := by
  refine .bind (.mapErr _ (lockCollateral_keeps ctx _ _ _)) fun _ => ?_
  refine .bind (.liftM _) fun coins => ?_
  refine .bind (.mapErr _ (outsideVault_of_bank (mintCoins_keeps _ _))) fun _ => ?_
  have hsent := sendCoinsFromModuleToAccount_keeps ctx stablecoinName terms.sender coins
  refine .bind (.mapErr _ (outsideVault_of_bank hsent)) fun _ => ?_
  exact .mapErr _ (updateMintedZYTD_keeps _ _ _)

theorem recordMint_keeps (req : MsgMintZYTD) (terms : MintTerms) :
    Keeps outsideDebt (recordMint ctx req terms) := by
  refine .bind (.attempt (.lookup _ _)) fun existing => ?_
  refine .bind (.liftM _) fun record => ?_
  refine .bind (setMintRecord_keeps _) fun _ => ?_
  refine .bind (.gets _) fun supply => ?_
  exact .bind (.liftM _) fun _ => setTotalSupply_keeps _

theorem mintZYTD_keeps (req : MsgMintZYTD) : Keeps outsideDebt (mintZYTD ctx req) := by
  refine .bind (mintTerms_keeps ctx _ req) fun terms => ?_
  refine .bind (outsideDebt_of_vault (lockAndIssue_keeps ctx _ terms)) fun _ => ?_
  refine .bind (recordMint_keeps ctx req terms) fun _ => ?_
  exact .bind (.liftM _) fun _ => .pure _

end Handlers

end Zytherion.VaultFrames
