import Zytherion.Application

/-!
# The state the modules share

One record holds what the bank, the collateral vault, the oracle and the
stablecoin keep. The bank's balances and supplies are total functions, since it
reads an absent entry as zero and never stores one. The other stores are finite
maps under the very keys the keepers build. The vault keeps its three kinds of
entries in one store under the prefixes `asset/`, `position/` and `locked/`;
no prefix begins another, so they are three maps here.
-/
namespace Zytherion.ChainState

open GoCall KeyedStore SdkMath Application

structure CollateralAsset where
  ibcDenom : String
  baseDenom : String
  minRatio : Dec
  liquidationThreshold : Dec
  isActive : Bool
deriving DecidableEq, Repr

structure CollateralPosition where
  owner : String
  ibcDenom : String
  amount : SdkInt
  lockedAt : Int64
  mintedZYTD : SdkInt
deriving DecidableEq

def defaultCollateralAssets : List CollateralAsset :=
  [⟨"uzytc", "ZYTC", .newDecWithPrec 200 2, .newDecWithPrec 150 2, true⟩,
    ⟨"ibc/axlUSDC", "axlUSDC", .newDecWithPrec 110 2, .newDecWithPrec 105 2, true⟩,
    ⟨"ibc/mUSDT", "mUSDT", .newDecWithPrec 110 2, .newDecWithPrec 105 2, true⟩,
    ⟨"ibc/ATOM", "ATOM", .newDecWithPrec 160 2, .newDecWithPrec 130 2, true⟩,
    ⟨"ibc/wBTC", "wBTC", .newDecWithPrec 150 2, .newDecWithPrec 125 2, true⟩,
    ⟨"ibc/wETH", "wETH", .newDecWithPrec 150 2, .newDecWithPrec 125 2, true⟩]

structure TWAPData where
  denom : String
  twap : Dec
  windowStart : Int64
  windowEnd : Int64
  numSamples : Int64
deriving DecidableEq

structure StablecoinParams where
  zytdDenom : String
  stabilityFeePerYear : Dec
  liquidationPenalty : Dec
  liquidatorReward : Dec
  protocolFeeReceiver : String
deriving DecidableEq, Repr

def vaultName : String := "ibc_collateral_vault"

def stablecoinName : String := "stablecoin_mint"

def zytdDenom : String := "uzytd"

def defaultStablecoinParams : StablecoinParams where
  zytdDenom := zytdDenom
  stabilityFeePerYear := .newDecWithPrec 5 3
  liquidationPenalty := .newDecWithPrec 10 2
  liquidatorReward := .newDecWithPrec 8 2
  protocolFeeReceiver := stablecoinName

structure MintRecord where
  owner : String
  ibcDenom : String
  minted : SdkInt
  collateralUSD : Dec
  mintedAt : Int64
deriving DecidableEq

structure State where
  balances : AccAddress → String → SdkInt
  supply : String → SdkInt
  assets : Store String CollateralAsset
  positions : Store String CollateralPosition
  locked : Store String SdkInt
  twaps : Store String TWAPData
  params : Option StablecoinParams
  records : Store String MintRecord
  totalSupply : Option SdkInt
  pqcKeys : Store String (List UInt8)

abbrev Exec (α : Type) : Type := Call State Err α

/-- The block a message runs in. Vesting schedules lie outside the modules: they
give the coins an account may not spend at the block's time, and module
accounts have none. -/
structure Ctx (A : App) where
  height : Int64
  time : Int64
  lockedCoins : AccAddress → String → SdkInt
  lockedCoins_nonneg : ∀ a d, 0 ≤ (lockedCoins a d).val
  lockedCoins_module : ∀ name ∈ maccNames, ∀ d, lockedCoins (A.newModuleAddress name) d = .zero

def vault (A : App) : AccAddress := A.newModuleAddress vaultName

def stablecoinAccount (A : App) : AccAddress := A.newModuleAddress stablecoinName

theorem vaultName_mem : vaultName ∈ maccNames := by decide

theorem stablecoinName_mem : stablecoinName ∈ maccNames := by decide

@[simp] theorem getModuleAddress_vault (A : App) :
    A.getModuleAddress vaultName = some (vault A) := if_pos vaultName_mem

@[simp] theorem getModuleAddress_stablecoin (A : App) :
    A.getModuleAddress stablecoinName = some (stablecoinAccount A) := if_pos stablecoinName_mem

theorem vault_ne_stablecoin (A : App) : vault A ≠ stablecoinAccount A := fun h =>
  absurd (A.newModuleAddress_inj _ vaultName_mem _ stablecoinName_mem h) (by decide)

theorem blockedAddr_vault (A : App) : A.blockedAddr (vault A) = true :=
  A.blockedAddr_module vaultName_mem (by decide)

theorem blockedAddr_stablecoin (A : App) : A.blockedAddr (stablecoinAccount A) = true :=
  A.blockedAddr_module stablecoinName_mem (by decide)

theorem ne_vault {A : App} {a : AccAddress} (h : A.blockedAddr a = false) : a ≠ vault A := by
  rintro rfl
  rw [blockedAddr_vault] at h
  exact absurd h (by decide)

theorem ne_stablecoin {A : App} {a : AccAddress} (h : A.blockedAddr a = false) :
    a ≠ stablecoinAccount A := by
  rintro rfl
  rw [blockedAddr_stablecoin] at h
  exact absurd h (by decide)

namespace State

/-- What account `a` holds of `d`, as a number. -/
def held (s : State) (d : String) (a : AccAddress) : ℤ := (s.balances a d).val

def putBalance (s : State) (a : AccAddress) (d : String) (v : SdkInt) : State :=
  { s with balances := fun x e => if x = a ∧ e = d then v else s.balances x e }

def putSupply (s : State) (d : String) (v : SdkInt) : State :=
  { s with supply := fun e => if e = d then v else s.supply e }

theorem held_putBalance (s : State) (a x : AccAddress) (d : String) (v : SdkInt) :
    (s.putBalance a d v).held d x = if x = a then v.val else s.held d x := by
  simp only [held, putBalance, and_true]
  split_ifs <;> rfl

theorem held_putBalance_ne (s : State) (a : AccAddress) {d e : String} (v : SdkInt) (h : e ≠ d) :
    (s.putBalance a d v).held e = s.held e := by
  funext x
  simp [held, putBalance, h]

end State

end Zytherion.ChainState
