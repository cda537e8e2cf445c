import Zytherion.VaultFrames
import Zytherion.Chain

/-!
# The four messages of the stablecoin

Minting, burning, liquidating and registering a key, as one type. From no state
whatsoever can a burn or a liquidation return: a burn of a positive amount has
to find a position without debt and then to reduce that debt. So a message that
returns is a mint or a registration, and `exec_ok` says what each of them did to
the stores outside the bank and the vault.
-/
namespace Zytherion.ZytdMessages

open GoCall KeyedStore SdkMath Application ChainState Bank CollateralKeeper StablecoinKeeper
open CollateralMsgServer StablecoinMsgServer Chain VaultFrames

inductive ZytdMsg where
  | mint (msg : MsgMintZYTD)
  | burn (msg : MsgBurnZYTD)
  | liquidate (msg : MsgLiquidate)
  | register (msg : MsgRegisterZYTDKey)

/-- What a mint, a burn or a liquidation puts before the signature check. -/
structure Signed where
  sender : String
  ibcDenom : String
  expirationBlockHeight : Int64
  dilithium5PubKey : List UInt8
  dilithium5Sig : List UInt8

namespace ZytdMsg

def getExpirationBlockHeight : ZytdMsg → Int64
  | mint msg => msg.expirationBlockHeight
  | burn msg => msg.expirationBlockHeight
  | liquidate msg => msg.expirationBlockHeight
  | register msg => msg.expirationBlockHeight

/-- A registration is not signed with the key it registers. -/
def signed : ZytdMsg → Option Signed
  | mint msg => some ⟨msg.sender, msg.ibcDenom, msg.expirationBlockHeight, msg.dilithium5PubKey,
      msg.dilithium5Sig⟩
  | burn msg => some ⟨msg.sender, msg.ibcDenom, msg.expirationBlockHeight, msg.dilithium5PubKey,
      msg.dilithium5Sig⟩
  | liquidate msg => some ⟨msg.liquidator, msg.ibcDenom, msg.expirationBlockHeight,
      msg.dilithium5PubKey, msg.dilithium5Sig⟩
  | register _ => none

def event {A : App} (ctx : Ctx A) : ZytdMsg → Event A
  | mint msg => .mint ctx msg
  | burn msg => .burn ctx msg
  | liquidate msg => .liquidate ctx msg
  | register msg => .register msg

def validateBasic (A : App) : ZytdMsg → Exec Unit
  | mint msg => msg.validateBasic A
  | burn msg => msg.validateBasic A
  | liquidate msg => msg.validateBasic A
  | register msg => msg.validateBasic A

/-- A handler whose response is not looked at. -/
def dropped {α : Type} (handler : Exec α) : Exec Unit := do
  let _ ← handler
  return ()

def handle {A : App} (ctx : Ctx A) : ZytdMsg → Exec Unit
  | mint msg => dropped (mintZYTD ctx msg)
  | burn msg => dropped (burnZYTD ctx msg)
  | liquidate msg => dropped (StablecoinMsgServer.liquidate ctx msg)
  | register msg => dropped (registerZYTDKey A msg)

/-- Validation and the handler, in a block. -/
def exec {A : App} (ctx : Ctx A) (z : ZytdMsg) : Exec Unit := (z.event ctx).exec

end ZytdMsg

section Burning
variable {A : App} {ctx : Ctx A} {s t : State} {owner : AccAddress} {d : String} {n : SdkInt}

theorem putReduced_mintedZYTD {pos pos' : CollateralPosition} {u : Unit}
    (h : putReduced A owner d pos s = .ok u t)
    (hs : ∀ p, s.positions.get (positionKey A owner d) = some p → p.mintedZYTD = pos.mintedZYTD)
    (hp : t.positions.get (positionKey A owner d) = some pos') :
    pos'.mintedZYTD = pos.mintedZYTD := by
  unfold putReduced setPosition deletePosition at h
  split at h
  · simp only [modifyStore_ok] at h
    subst h
    simp at hp
  · cases ho : A.accAddressFromBech32 pos.owner with
    | error e =>
        simp only [ho, pure_ok] at h
        rw [← h.2] at hp
        exact hs pos' hp
    | ok owner' =>
        simp only [ho, modifyStore_ok] at h
        subst h
        rw [Store.get_set] at hp
        split_ifs at hp
        · rw [Option.some.inj hp]
        · exact hs pos' hp

/-- Unlocking passes its guard only without debt and creates none. -/
theorem unlockCollateral_leaves_free {u : Unit} (h : unlockCollateral ctx owner d n s = .ok u t)
    {pos : CollateralPosition} (hp : t.positions.get (positionKey A owner d) = some pos) :
    pos.mintedZYTD.val ≤ 0 := by
  simp only [unlockCollateral, unlockAfterGuard, releaseCollateral, getPosition, bind_ok, lookup_ok,
    require_ok, liftM_ok, mapErr_ok, getTotalLocked, gets_ok, setTotalLocked, modifyStore_ok,
    Bool.not_eq_true', SdkInt.isPositive_eq_false] at h
  obtain ⟨found, _, ⟨hfound, rfl⟩, _, _, ⟨hfree, rfl⟩, total, m₃, ⟨_, _, ⟨-, rfl⟩, _, _, ⟨-, rfl⟩, _,
    m₁, hsend, newAmount, _, ⟨-, rfl⟩, _, m₂, hput, _, _, ⟨-, rfl⟩, -, rfl⟩, rfl⟩ := h
  have hpos : m₁.positions = s.positions :=
    outsideBank_positions ((sendCoinsFromModuleToAccount_keeps ctx _ _ _).ok hsend)
  have hsame := putReduced_mintedZYTD hput (by
    intro p hp
    rw [hpos, hfound] at hp
    rw [← Option.some.inj hp]) hp
  rw [hsame]
  exact hfree

/-- No burn of a positive amount returns, from any state. -/
theorem burnZYTD_never {req : MsgBurnZYTD} (hreq : req.zytdAmount = some n) (hn : 0 < n.val)
    (r : SdkInt) : burnZYTD ctx req s ≠ .ok r t := by
  intro h
  simp only [burnZYTD, burnBeforeSupply, bind_ok, deref, hreq, liftM_ok, orPanic_ok,
    Option.some.injEq, mapErr_ok] at h
  obtain ⟨_, _, ⟨sender, _, -, _, _, -, _, _, -, _, _, ⟨rfl, rfl⟩, _, _, -, _, _, -, _, _, -, _, _, -,
    _, _, -, _, m, hunlock, _, _, hupdate, -⟩, -⟩ := h
  simp only [updateMintedZYTD, getPosition, bind_ok, lookup_ok, liftM_ok, SdkInt.add_ok,
    require_ok, Bool.not_eq_true', SdkInt.isNegative_eq_false, SdkInt.neg_val] at hupdate
  obtain ⟨pos, _, ⟨hpos, rfl⟩, newMinted, _, ⟨hnew, rfl⟩, _, _, ⟨hnonneg, rfl⟩, -⟩ := hupdate
  have hfree := unlockCollateral_leaves_free hunlock hpos
  omega

end Burning

section Effects
variable {A : App} {ctx : Ctx A} {s t : State} {u : Unit}

theorem liquidate_never {req : MsgLiquidate} (r : SdkInt) :
    StablecoinMsgServer.liquidate ctx req s ≠ .ok r t := by
  intro h
  simp only [StablecoinMsgServer.liquidate, bind_ok] at h
  obtain ⟨_, _, hbefore, -⟩ := h
  exact liquidateBeforeSupply_fails ctx req s _ _ hbefore

theorem registerZYTDKey_stores {msg : MsgRegisterZYTDKey} {r : String}
    (h : registerZYTDKey A msg s = .ok r t) : ∃ sender, A.accAddressFromBech32 msg.sender = .ok sender ∧
      t = { s with pqcKeys := s.pqcKeys.set (pqcKeyRegistryKey A sender) msg.dilithium5PubKey } := by
  simp only [registerZYTDKey, setZYTDPQCKey, bind_ok, address_ok, modifyStore_ok, pure_ok] at h
  obtain ⟨sender, _, ⟨hsender, rfl⟩, _, _, rfl, -, rfl⟩ := h
  exact ⟨sender, hsender, rfl⟩

/-- What a message that returned can have been. -/
theorem exec_ok {z : ZytdMsg} (h : z.exec ctx s = .ok u t) :
    (∃ msg r, z = .mint msg ∧ mintZYTD ctx msg s = .ok r t) ∨
    ∃ msg sender, z = .register msg ∧ A.accAddressFromBech32 msg.sender = .ok sender ∧
      t = { s with pqcKeys := s.pqcKeys.set (pqcKeyRegistryKey A sender) msg.dilithium5PubKey } := by
  cases z with
  | mint msg =>
      obtain ⟨_, m, r, hvalid, hmint⟩ := handled_ok.mp h
      obtain ⟨rfl, -⟩ := MsgMintZYTD.validateBasic_ok hvalid
      exact .inl ⟨msg, r, rfl, hmint⟩
  | burn msg =>
      obtain ⟨_, m, r, hvalid, hburn⟩ := handled_ok.mp h
      obtain ⟨rfl, n, hreq, hn⟩ := MsgBurnZYTD.validateBasic_ok hvalid
      exact (burnZYTD_never hreq hn r hburn).elim
  | liquidate msg =>
      obtain ⟨_, m, r, -, hliquidate⟩ := handled_ok.mp h
      exact (liquidate_never r hliquidate).elim
  | register msg =>
      obtain ⟨_, m, r, hvalid, hregister⟩ := handled_ok.mp h
      obtain rfl := MsgRegisterZYTDKey.validateBasic_ok hvalid
      obtain ⟨sender, hsender, ht⟩ := registerZYTDKey_stores hregister
      exact .inr ⟨msg, sender, rfl, hsender, ht⟩

end Effects

end Zytherion.ZytdMessages
