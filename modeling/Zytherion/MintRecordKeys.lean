import Zytherion.VaultFrames
import Zytherion.Chain

/-!
# Where mint records stand

A mint record is stored under the key computed from its own fields. Only three
calls write records: minting and burning store one under that key, burning and
liquidating delete one. So a record is found under its own key in every state the
messages lead to, whatever else the state holds.
-/
namespace Zytherion.MintRecordKeys

open GoCall KeyedStore SdkMath Application ChainState Bank CollateralKeeper StablecoinKeeper
open CollateralMsgServer StablecoinMsgServer VaultFrames Chain

def RecordsKeyed (A : App) (s : State) : Prop :=
  ∀ k record, s.records.get k = some record → storedRecordKey A record = k

theorem records_of_vault {α : Type} {x : Exec α} (hx : Keeps outsideVault x) :
    Keeps State.records x := hx.map State.records

theorem records_of_bank {α : Type} {x : Exec α} (hx : Keeps outsideBank x) :
    Keeps State.records x := hx.map State.records

section Writes
variable {A : App}

theorem RecordsKeyed.of_records {s t : State} (h : t.records = s.records)
    (hs : RecordsKeyed A s) : RecordsKeyed A t := by
  intro k record hget
  rw [h] at hget
  exact hs k record hget

theorem maintains_of_records {α : Type} {x : Exec α} (hx : Keeps State.records x) :
    Maintains (RecordsKeyed A) x :=
  .of_keeps (fun _ _ h => RecordsKeyed.of_records h) hx

theorem after_kept {α β : Type} {x : Exec α} {f : α → Exec β} (hx : Keeps State.records x)
    (hf : ∀ a, Maintains (RecordsKeyed A) (f a)) : Maintains (RecordsKeyed A) (x >>= f) :=
  .bind (maintains_of_records hx) hf

theorem setMintRecord_maintains (record : MintRecord) :
    Maintains (RecordsKeyed A) (setMintRecord A record) := by
  refine .modifyStore fun s hs => ?_
  intro k other hget
  rw [Store.get_set] at hget
  split_ifs at hget with hk
  · cases hget
    exact hk.symm
  · exact hs k other hget

theorem deleteMintRecord_maintains (owner : AccAddress) (d : String) :
    Maintains (RecordsKeyed A) (deleteMintRecord A owner d) := by
  refine .modifyStore fun s hs => ?_
  intro k record hget
  rw [Store.get_delete] at hget
  split_ifs at hget with hk
  exact hs k record hget

end Writes

section Handlers
variable {A : App} (ctx : Ctx A)

theorem mintZYTD_maintains (req : MsgMintZYTD) :
    Maintains (RecordsKeyed A) (mintZYTD ctx req) := by
  have hrecord : ∀ terms, Maintains (RecordsKeyed A) (recordMint ctx req terms) := fun terms =>
    after_kept (.attempt (.lookup _ _)) fun _ => after_kept (.liftM _) fun _ =>
      .bind (setMintRecord_maintains _) fun _ =>
      maintains_of_records (.bind (.gets _) fun _ => .bind (.liftM _) fun _ =>
        .modifyStore fun _ => rfl)
  exact after_kept (mintTerms_keeps ctx _ req) fun terms =>
    after_kept (records_of_vault (lockAndIssue_keeps ctx _ terms)) fun _ =>
    .bind (hrecord terms) fun _ =>
    maintains_of_records (.bind (.liftM _) fun _ => .pure _)

theorem burnFrom_keeps (payer : AccAddress) (amount : SdkInt) (c₁ c₂ : String) :
    Keeps outsideBank (burnFrom ctx payer amount c₁ c₂) :=
  .bind (.liftM _) fun _ => .bind (.mapErr _ (sendCoinsFromAccountToModule_keeps ctx _ _ _))
    fun _ => .mapErr _ (burnCoins_keeps ctx _ _)

theorem settleRecord_maintains (sender : AccAddress) (d : String) (record : MintRecord)
    (newMinted : SdkInt) (ratio : Dec) :
    Maintains (RecordsKeyed A) (settleRecord A sender d record newMinted ratio) := by
  unfold settleRecord
  split_ifs
  · exact deleteMintRecord_maintains sender d
  · exact after_kept (.liftM _) fun _ =>
      after_kept (.liftM _) fun _ => setMintRecord_maintains _

theorem burnZYTD_maintains (req : MsgBurnZYTD) :
    Maintains (RecordsKeyed A) (burnZYTD ctx req) := by
  -- everything up to the record is in the bank or in the vault
  have hbefore : Maintains (RecordsKeyed A) (burnBeforeSupply ctx req) :=
    after_kept (.mapErr _ (.ofExcept _)) fun _ =>
      after_kept (verifyZYTDPQCSig_keeps ctx _ _ _ _ _ _) fun _ =>
      after_kept (.mapErr _ (.lookup _ _)) fun _ =>
      after_kept (.liftM _) fun _ =>
      after_kept (.require _ _) fun _ =>
      after_kept (records_of_bank (burnFrom_keeps ctx _ _ _ _)) fun _ =>
      after_kept (.mapErr _ (.lookup _ _)) fun _ =>
      after_kept (.liftM _) fun _ =>
      after_kept (.liftM _) fun _ =>
      after_kept (.mapErr _ (records_of_vault (unlockCollateral_keeps ctx _ _ _))) fun _ =>
      after_kept (.mapErr _ (records_of_vault (updateMintedZYTD_keeps _ _ _))) fun _ =>
      after_kept (.liftM _) fun _ =>
      .bind (settleRecord_maintains _ _ _ _ _) fun _ =>
      maintains_of_records (.bind (.gets _) fun _ => .bind (.liftM _) fun _ => .pure _)
  exact .bind hbefore fun _ =>
    maintains_of_records (.bind (.modifyStore fun _ => rfl) fun _ => .pure _)

theorem payReward_keeps (liquidator : AccAddress) (d : String) (reward : SdkInt) :
    Keeps outsideBank (payReward ctx liquidator d reward) :=
  .ite (.bind (.liftM _) fun _ => .ignoreErr (sendCoinsFromModuleToAccount_keeps ctx _ _ _))
    (.pure _)

theorem payFee_keeps (receiver d : String) (fee : SdkInt) :
    Keeps outsideBank (payFee ctx receiver d fee) := by
  unfold payFee
  refine .ite ?_ (.pure _)
  cases A.accAddressFromBech32 receiver with
  | error e => exact .pure _
  | ok feeReceiver =>
      exact .bind (.liftM _) fun _ => .ignoreErr (sendCoinsFromModuleToAccount_keeps ctx _ _ _)

/-- The checks of a liquidation write nothing. -/
theorem liquidationTarget_keeps {γ : Type} (view : State → γ) (req : MsgLiquidate) :
    Keeps view (liquidationTarget ctx req) :=
  .bind (.mapErr _ (.ofExcept _)) fun _ => .bind (.mapErr _ (.ofExcept _)) fun _ =>
    .bind (verifyZYTDPQCSig_keeps ctx _ _ _ _ _ _) fun _ => .bind (.mapErr _ (.lookup _ _)) fun _ =>
    .bind (.mapErr _ (.lookup _ _)) fun _ => .bind (.mapErr _ (.lookup _ _)) fun _ =>
    .bind (.liftM _) fun _ => .bind (.require _ _) fun _ => .bind (.liftM _) fun _ =>
    .bind (.require _ _) fun _ => .pure _

theorem liquidate_maintains (req : MsgLiquidate) :
    Maintains (RecordsKeyed A) (liquidate ctx req) := by
  have hbefore : Maintains (RecordsKeyed A) (liquidateBeforeSupply ctx req) :=
    after_kept (liquidationTarget_keeps ctx _ req) fun _ =>
      after_kept (.gets _) fun _ =>
      after_kept (.liftM _) fun _ =>
      after_kept (records_of_bank (burnFrom_keeps ctx _ _ _ _)) fun _ =>
      after_kept (.mapErr _ (records_of_vault (unlockCollateral_keeps ctx _ _ _))) fun _ =>
      after_kept (records_of_bank (payReward_keeps ctx _ _ _)) fun _ =>
      after_kept (records_of_bank (payFee_keeps ctx _ _ _)) fun _ =>
      after_kept (.mapErr _ (records_of_vault (updateMintedZYTD_keeps _ _ _))) fun _ =>
      .bind (deleteMintRecord_maintains _ _) fun _ =>
      maintains_of_records (.bind (.gets _) fun _ => .bind (.liftM _) fun _ => .pure _)
  exact .bind hbefore fun _ =>
    maintains_of_records (.bind (.modifyStore fun _ => rfl) fun _ => .pure _)

end Handlers

section Events
variable {A : App}

theorem handled_maintains {α : Type} {validate : Exec Unit} {handler : Exec α}
    (hv : Keeps State.records validate) (hh : Maintains (RecordsKeyed A) handler) :
    Maintains (RecordsKeyed A) (handled validate handler) :=
  after_kept hv fun _ => .bind hh fun _ => maintains_of_records (.pure _)

/-- Validation asks for fields one after the other. -/
theorem address_keeps {γ : Type} (view : State → γ) (field text : String) :
    Keeps view (address A field text) := .mapErr _ (.ofExcept _)

theorem event_maintains (e : Event A) : Maintains (RecordsKeyed A) e.exec := by
  cases e with
  | storeTWAP data => exact maintains_of_records (.modifyStore fun _ => rfl)
  | lock ctx msg =>
      exact handled_maintains (records_of_vault (validateFields_keeps _ _ _))
        (maintains_of_records (records_of_vault (msgLockCollateral_keeps ctx msg)))
  | unlock ctx msg =>
      exact handled_maintains (records_of_vault (validateFields_keeps _ _ _))
        (maintains_of_records (records_of_vault (msgUnlockCollateral_keeps ctx msg)))
  | mint ctx msg =>
      exact handled_maintains (.bind (address_keeps _ _ _) fun _ => .bind (.require _ _) fun _ =>
        .bind (.require _ _) fun _ => .bind (.require _ _) fun _ => .require _ _)
        (mintZYTD_maintains ctx msg)
  | burn ctx msg =>
      exact handled_maintains (.bind (address_keeps _ _ _) fun _ => .bind (.require _ _) fun _ =>
        .bind (.require _ _) fun _ => .require _ _) (burnZYTD_maintains ctx msg)
  | liquidate ctx msg =>
      exact handled_maintains (.bind (address_keeps _ _ _) fun _ => .bind (address_keeps _ _ _)
        fun _ => .bind (.require _ _) fun _ => .require _ _) (liquidate_maintains ctx msg)
  | register msg =>
      exact handled_maintains (.bind (address_keeps _ _ _) fun _ => .bind (.require _ _) fun _ =>
        .require _ _) (maintains_of_records (.bind (address_keeps _ _ _) fun _ =>
          .bind (.modifyStore fun _ => rfl) fun _ => .pure _))

end Events

end Zytherion.MintRecordKeys
