import Zytherion.CollateralKeeper

/-!
# The collateral messages

Stateless validation and the two handlers of the vault. An amount field may be
missing on the wire; reading a missing amount panics.
-/
namespace Zytherion.CollateralMsgServer

open GoCall KeyedStore SdkMath Application ChainState Bank CollateralKeeper

def errInvalidAddress : Err := collateralErr 1406 "invalid address"
def errInvalidAmount : Err := collateralErr 1407 "invalid amount: must be positive"

/-- Any use of an integer that was never set. -/
def deref (amount : Option SdkInt) : Checked SdkInt :=
  orPanic amount "invalid memory address or nil pointer dereference"

structure MsgLockCollateral where
  owner : String
  ibcDenom : String
  amount : Option SdkInt

structure MsgUnlockCollateral where
  owner : String
  ibcDenom : String
  amount : Option SdkInt

structure MsgLockCollateralResponse where
  owner : String
  ibcDenom : String
  locked : SdkInt
deriving DecidableEq

structure MsgUnlockCollateralResponse where
  owner : String
  ibcDenom : String
  unlocked : SdkInt
  remaining : SdkInt
deriving DecidableEq

section Messages
variable (A : App)

/-- Both messages validate the same three fields. -/
def validateFields (owner ibcDenom : String) (amount : Option SdkInt) : Exec Unit := do
  let _ ← mapErr (fun e => .wrap ("invalid owner address: " ++ e.text) errInvalidAddress)
    (ofExcept (A.accAddressFromBech32 owner))
  require (ibcDenom != "") (.wrap "ibc_denom must not be empty" errDenomNotWhitelisted)
  let amount ← deref amount
  require amount.isPositive (.wrap "amount must be positive" errInvalidAmount)

def MsgLockCollateral.validateBasic (msg : MsgLockCollateral) : Exec Unit :=
  validateFields A msg.owner msg.ibcDenom msg.amount

def MsgUnlockCollateral.validateBasic (msg : MsgUnlockCollateral) : Exec Unit :=
  validateFields A msg.owner msg.ibcDenom msg.amount

def ownerAddress (owner : String) : Exec AccAddress :=
  mapErr (fun e => .wrap ("owner: " ++ e.text) errInvalidAddress)
    (ofExcept (A.accAddressFromBech32 owner))

variable {A} (ctx : Ctx A)

def msgLockCollateral (msg : MsgLockCollateral) : Exec MsgLockCollateralResponse := do
  let ownerAddr ← ownerAddress A msg.owner
  let amount ← deref msg.amount
  lockCollateral ctx ownerAddr msg.ibcDenom amount
  let pos ← mapErr (.wrap "LockCollateral: failed to fetch updated position")
    (getPosition A ownerAddr msg.ibcDenom)
  return ⟨msg.owner, msg.ibcDenom, pos.amount⟩

def msgUnlockCollateral (msg : MsgUnlockCollateral) : Exec MsgUnlockCollateralResponse := do
  let ownerAddr ← ownerAddress A msg.owner
  let oldPos ← getPosition A ownerAddr msg.ibcDenom
  let amount ← deref msg.amount
  unlockCollateral ctx ownerAddr msg.ibcDenom amount
  let remaining ← oldPos.amount.sub amount
  return ⟨msg.owner, msg.ibcDenom, amount, remaining.clampNegative⟩

end Messages

section Laws
variable {A : App} {ctx : Ctx A} {s t : State} {u : Unit}

theorem validateFields_ok {owner d : String} {amount : Option SdkInt} :
    validateFields A owner d amount s = .ok u t ↔
      (∃ a, A.accAddressFromBech32 owner = .ok a) ∧ d ≠ "" ∧
        (∃ n, amount = some n ∧ 0 < n.val) ∧ s = t := by
  simp only [validateFields, deref, bind_ok, mapErr_ok, ofExcept_ok, require_ok, liftM_ok, orPanic_ok,
    bne_iff_ne, SdkInt.isPositive_iff]
  constructor
  · rintro ⟨a, _, ⟨ha, rfl⟩, _, _, ⟨hd, rfl⟩, n, _, ⟨hn, rfl⟩, hpos, rfl⟩
    exact ⟨⟨a, ha⟩, hd, ⟨n, hn, hpos⟩, rfl⟩
  · rintro ⟨⟨a, ha⟩, hd, ⟨n, hn, hpos⟩, rfl⟩
    exact ⟨a, _, ⟨ha, rfl⟩, (), _, ⟨hd, rfl⟩, n, _, ⟨hn, rfl⟩, hpos, rfl⟩

theorem ownerAddress_ok {owner : String} {a : AccAddress} :
    ownerAddress A owner s = .ok a t ↔ A.accAddressFromBech32 owner = .ok a ∧ s = t := by
  simp [ownerAddress]

/-- A returning lock message is a keeper call for the owner it names. -/
theorem msgLockCollateral_ok {msg : MsgLockCollateral} {r : MsgLockCollateralResponse}
    (h : msgLockCollateral ctx msg s = .ok r t) :
    ∃ owner n, A.accAddressFromBech32 msg.owner = .ok owner ∧ msg.amount = some n ∧
      lockCollateral ctx owner msg.ibcDenom n s = .ok () t := by
  simp only [msgLockCollateral, deref, bind_ok, ownerAddress_ok, liftM_ok, orPanic_ok, mapErr_ok,
    getPosition, lookup_ok, pure_ok] at h
  obtain ⟨owner, _, ⟨ho, rfl⟩, n, _, ⟨hn, rfl⟩, _, _, hlock, pos, _, ⟨-, rfl⟩, -, rfl⟩ := h
  exact ⟨owner, n, ho, hn, hlock⟩

theorem msgUnlockCollateral_ok {msg : MsgUnlockCollateral} {r : MsgUnlockCollateralResponse}
    (h : msgUnlockCollateral ctx msg s = .ok r t) :
    ∃ owner n, A.accAddressFromBech32 msg.owner = .ok owner ∧ msg.amount = some n ∧
      unlockCollateral ctx owner msg.ibcDenom n s = .ok () t := by
  simp only [msgUnlockCollateral, deref, bind_ok, ownerAddress_ok, liftM_ok, orPanic_ok,
    getPosition, lookup_ok, pure_ok] at h
  obtain ⟨owner, _, ⟨ho, rfl⟩, old, _, ⟨-, rfl⟩, n, _, ⟨hn, rfl⟩, _, _, hunlock, rest, _, ⟨-, rfl⟩, -,
    rfl⟩ := h
  exact ⟨owner, n, ho, hn, hunlock⟩

end Laws

end Zytherion.CollateralMsgServer
