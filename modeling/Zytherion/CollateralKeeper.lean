import Zytherion.Bank

/-!
# The collateral vault's keeper

Positions are stored per owner and denomination, and a counter per denomination
sums up what is locked. Locking moves coins from the owner to the vault account
and raises both; unlocking moves them back, refuses while the position carries
debt, and removes a position that reaches zero. Debt is adjusted by the
stablecoin module through `updateMintedZYTD`.

`Deposited`, `Withdrawn` and `Drawn` say everything a returning call did; later
modules use them and never unfold the keeper.
-/
namespace Zytherion.CollateralKeeper

open GoCall KeyedStore SdkMath Application ChainState Bank

def collateralErr (code : ℕ) (description : String) : Err :=
  .registered "ibccollateral" code description

def errDenomNotWhitelisted : Err := collateralErr 1400 "IBC denom not whitelisted as collateral"
def errAssetNotActive : Err := collateralErr 1401 "collateral asset is not active"
def errPositionNotFound : Err := collateralErr 1403 "collateral position not found"
def errUnlockDenied : Err := collateralErr 1404 "cannot unlock: outstanding ZYTD debt"
def errInsufficientLockedAmount : Err := collateralErr 1405 "unlock amount exceeds locked balance"

def assetKey (ibcDenom : String) : String := "asset/" ++ ibcDenom

def lockedKey (ibcDenom : String) : String := "locked/" ++ ibcDenom

section Keeper
variable (A : App)

def positionKey (owner : AccAddress) (ibcDenom : String) : String :=
  "position/" ++ A.text owner ++ "/" ++ ibcDenom

def registerCollateralAsset (asset : CollateralAsset) : Exec Unit := do
  require (asset.ibcDenom != "")
    (.plain "RegisterCollateralAsset: ibc_denom must not be empty")
  modifyStore fun s => { s with assets := s.assets.set (assetKey asset.ibcDenom) asset }

def getCollateralAsset (ibcDenom : String) : Exec CollateralAsset :=
  lookup (fun s => s.assets.get (assetKey ibcDenom))
    (.wrap ("denom: " ++ ibcDenom) errDenomNotWhitelisted)

def getPosition (owner : AccAddress) (ibcDenom : String) : Exec CollateralPosition :=
  lookup (fun s => s.positions.get (positionKey A owner ibcDenom))
    (.wrap ("owner: " ++ A.text owner ++ ", denom: " ++ ibcDenom) errPositionNotFound)

/-- An owner text that does not parse is logged and nothing is written. -/
def setPosition (pos : CollateralPosition) : Exec Unit :=
  match A.accAddressFromBech32 pos.owner with
  | .error _ => pure ()
  | .ok owner => modifyStore fun s =>
      { s with positions := s.positions.set (positionKey A owner pos.ibcDenom) pos }

def deletePosition (owner : AccAddress) (ibcDenom : String) : Exec Unit :=
  modifyStore fun s => { s with positions := s.positions.delete (positionKey A owner ibcDenom) }

/-- What the counter of a denomination reads, zero when it was never written. -/
def totalLocked (s : State) (ibcDenom : String) : SdkInt :=
  (s.locked.get (lockedKey ibcDenom)).getD .zero

def getTotalLocked (ibcDenom : String) : Exec SdkInt := gets fun s => totalLocked s ibcDenom

def setTotalLocked (ibcDenom : String) (amount : SdkInt) : Exec Unit :=
  modifyStore fun s => { s with locked := s.locked.set (lockedKey ibcDenom) amount }

def freshPosition (time : Int64) (owner : AccAddress) (ibcDenom : String) : CollateralPosition where
  owner := A.text owner
  ibcDenom := ibcDenom
  amount := .zero
  lockedAt := time
  mintedZYTD := .zero

variable {A} (ctx : Ctx A)

def lockCollateral (owner : AccAddress) (ibcDenom : String) (amount : SdkInt) : Exec Unit := do
  let asset ← getCollateralAsset ibcDenom
  require asset.isActive (.wrap ("denom: " ++ ibcDenom) errAssetNotActive)
  let coins ← newCoinsOf ibcDenom amount
  mapErr (.wrap "LockCollateral: bank transfer failed")
    (sendCoinsFromAccountToModule ctx owner vaultName coins)
  let found ← attempt (getPosition A owner ibcDenom)
  let pos := found.getD (freshPosition A ctx.time owner ibcDenom)
  let newAmount ← pos.amount.add amount
  setPosition A { pos with amount := newAmount }
  let total ← getTotalLocked ibcDenom
  let newTotal ← total.add amount
  setTotalLocked ibcDenom newTotal

variable (A) in
/-- A position that reaches zero is removed. -/
def putReduced (owner : AccAddress) (ibcDenom : String) (pos : CollateralPosition) : Exec Unit :=
  if pos.amount.isZero then deletePosition A owner ibcDenom else setPosition A pos

/-- The part of unlocking between the debt guard and the write of the counter.
It returns the counter's new value before that is clamped at zero. -/
def releaseCollateral (owner : AccAddress) (ibcDenom : String) (amount : SdkInt)
    (pos : CollateralPosition) : Exec SdkInt := do
  require (!amount.gt pos.amount)
    (.wrap ("requested " ++ toString amount ++ " but only " ++ toString pos.amount ++ " is locked")
      errInsufficientLockedAmount)
  let coins ← newCoinsOf ibcDenom amount
  mapErr (.wrap "UnlockCollateral: bank transfer failed")
    (sendCoinsFromModuleToAccount ctx vaultName owner coins)
  let newAmount ← pos.amount.sub amount
  putReduced A owner ibcDenom { pos with amount := newAmount }
  let total ← getTotalLocked ibcDenom
  total.sub amount

/-- Unlocking after its debt guard. -/
def unlockAfterGuard (owner : AccAddress) (ibcDenom : String) (amount : SdkInt)
    (pos : CollateralPosition) : Exec Unit := do
  let newTotal ← releaseCollateral ctx owner ibcDenom amount pos
  setTotalLocked ibcDenom newTotal.clampNegative

def unlockCollateral (owner : AccAddress) (ibcDenom : String) (amount : SdkInt) : Exec Unit := do
  let pos ← getPosition A owner ibcDenom
  require (!pos.mintedZYTD.isPositive)
    (.wrap ("owner " ++ A.text owner ++ " has " ++ toString pos.mintedZYTD ++
      " ZYTD outstanding against " ++ ibcDenom ++ " collateral") errUnlockDenied)
  unlockAfterGuard ctx owner ibcDenom amount pos

variable (A) in
def updateMintedZYTD (owner : AccAddress) (ibcDenom : String) (delta : SdkInt) : Exec Unit := do
  let pos ← getPosition A owner ibcDenom
  let newMinted ← pos.mintedZYTD.add delta
  require (!newMinted.isNegative)
    (.plain ("UpdateMintedZYTD: resulting minted_zytd would be negative (" ++ toString newMinted ++
      ")"))
  setPosition A { pos with mintedZYTD := newMinted }

end Keeper

/-- Every stored position names the owner and the denomination of its key. -/
def Keyed (A : App) (s : State) : Prop := ∀ k pos, s.positions.get k = some pos →
  ∃ owner, A.accAddressFromBech32 pos.owner = .ok owner ∧ k = positionKey A owner pos.ibcDenom

/-- The stored position, or the one locking starts from. -/
def positionOr {A : App} (ctx : Ctx A) (s : State) (owner : AccAddress) (d : String) :
    CollateralPosition :=
  (s.positions.get (positionKey A owner d)).getD (freshPosition A ctx.time owner d)

/-- `n` of `d` went from `owner` into the vault. -/
structure Deposited {A : App} (ctx : Ctx A) (s t : State) (owner : AccAddress) (d : String)
    (n : ℤ) : Prop where
  denom : validateDenom d = true
  nonneg : 0 ≤ n
  paid : Paid s t owner (vault A) d n
  position : ∃ v : SdkInt, v.val = (positionOr ctx s owner d).amount.val + n ∧
    t.positions = s.positions.set (positionKey A owner d)
      { positionOr ctx s owner d with amount := v }
  counter : ∃ w : SdkInt, w.val = (totalLocked s d).val + n ∧
    t.locked = s.locked.set (lockedKey d) w
  frame : t = { s with balances := t.balances, positions := t.positions, locked := t.locked }

/-- `n` of `d` went back from the vault to `owner`, whose position was `pos`. -/
structure Released (A : App) (s t : State) (owner : AccAddress) (d : String) (n : ℤ)
    (pos : CollateralPosition) : Prop where
  denom : validateDenom d = true
  nonneg : 0 ≤ n
  le_amount : n ≤ pos.amount.val
  unblocked : A.blockedAddr owner = false
  paid : Paid s t (vault A) owner d n
  position : ∃ v : SdkInt, v.val = pos.amount.val - n ∧
    t.positions = if v.val = 0 then s.positions.delete (positionKey A owner d)
      else s.positions.set (positionKey A owner d) { pos with amount := v }

/-- A release after which the counter was written. -/
structure Withdrawn (A : App) (s t : State) (owner : AccAddress) (d : String) (n : ℤ)
    (pos : CollateralPosition) : Prop extends Released A s t owner d n pos where
  counter : ∃ w : SdkInt, w.val = max 0 ((totalLocked s d).val - n) ∧
    t.locked = s.locked.set (lockedKey d) w
  frame : t = { s with balances := t.balances, positions := t.positions, locked := t.locked }

/-- The debt of `owner`'s position `pos` changed by `n`. -/
structure Drawn (A : App) (s t : State) (owner : AccAddress) (d : String) (n : ℤ)
    (pos : CollateralPosition) : Prop where
  found : s.positions.get (positionKey A owner d) = some pos
  debt : ∃ v : SdkInt, v.val = pos.mintedZYTD.val + n ∧ 0 ≤ v.val ∧
    t.positions = s.positions.set (positionKey A owner d) { pos with mintedZYTD := v }
  frame : t = { s with positions := t.positions }

section Laws
variable {A : App} {ctx : Ctx A} {s t : State} {owner : AccAddress} {d : String} {n : SdkInt}
variable {u : Unit} {pos : CollateralPosition}

theorem positionKey_inj {a b : AccAddress} {e : String}
    (h : positionKey A a d = positionKey A b e) : a = b ∧ d = e := A.ownerKey_inj "position/" h

theorem lockedKey_inj {e : String} (h : lockedKey d = lockedKey e) : d = e := by
  have hl := congrArg String.toList h
  simp only [lockedKey, String.toList_append, List.append_cancel_left_eq] at hl
  exact String.toList_inj.mp hl

theorem Keyed.at (hk : Keyed A s) (hp : s.positions.get (positionKey A owner d) = some pos) :
    A.accAddressFromBech32 pos.owner = .ok owner ∧ pos.ibcDenom = d := by
  obtain ⟨o, ho, hkey⟩ := hk _ _ hp
  obtain ⟨rfl, rfl⟩ := positionKey_inj hkey
  exact ⟨ho, rfl⟩

/-- Rewriting one entry by a position that names its key keeps the store keyed. -/
theorem Keyed.put (hk : Keyed A s) (entry : Option CollateralPosition)
    (hentry : ∀ pos, entry = some pos →
      A.accAddressFromBech32 pos.owner = .ok owner ∧ pos.ibcDenom = d)
    (ht : t.positions = s.positions.put (positionKey A owner d) entry) : Keyed A t := by
  intro k pos hp
  rw [ht, Store.get_put] at hp
  split_ifs at hp with hkey
  · obtain ⟨howner, hdenom⟩ := hentry pos hp
    exact ⟨owner, howner, by rw [hkey, hdenom]⟩
  · exact hk k pos hp

theorem Keyed.positionOr (hk : Keyed A s) (ctx : Ctx A) (owner : AccAddress) (d : String) :
    A.accAddressFromBech32 (positionOr ctx s owner d).owner = .ok owner ∧
      (CollateralKeeper.positionOr ctx s owner d).ibcDenom = d := by
  unfold CollateralKeeper.positionOr
  cases hp : s.positions.get (positionKey A owner d) with
  | none => exact ⟨A.accAddressFromBech32_text owner, rfl⟩
  | some pos => exact hk.at hp

theorem setPosition_ok (pos : CollateralPosition) (ho : A.accAddressFromBech32 pos.owner = .ok owner) :
    setPosition A pos s = .ok u t ↔
      { s with positions := s.positions.set (positionKey A owner pos.ibcDenom) pos } = t := by
  simp [setPosition, ho]

theorem putReduced_ok (pos : CollateralPosition)
    (ho : A.accAddressFromBech32 pos.owner = .ok owner) (hd : pos.ibcDenom = d) :
    putReduced A owner d pos s = .ok u t ↔
      { s with positions := if pos.amount.val = 0 then s.positions.delete (positionKey A owner d)
          else s.positions.set (positionKey A owner d) pos } = t := by
  unfold putReduced
  by_cases hz : pos.amount.val = 0
  · simp [hz, deletePosition]
  · simp [hz, setPosition_ok pos ho, hd]

theorem lockCollateral_ok (hk : Keyed A s) (h : lockCollateral ctx owner d n s = .ok u t) :
    Deposited ctx s t owner d n.val := by
  simp only [lockCollateral, getCollateralAsset, getPosition, getTotalLocked, setTotalLocked,
    bind_ok, lookup_ok, require_ok, liftM_ok, newCoinsOf_ok, mapErr_ok, attempt_lookup_ok,
    SdkInt.add_ok, gets_ok, modifyStore_ok] at h
  obtain ⟨asset, _, ⟨-, rfl⟩, _, _, ⟨-, rfl⟩, coins, _, ⟨⟨hd, hn, rfl⟩, rfl⟩, _, m, hsend, found, _,
    ⟨hfound, rfl⟩, v, _, ⟨hv, rfl⟩, _, p, hset, total, _, ⟨htotal, rfl⟩, w, _, ⟨hw, rfl⟩, rfl⟩ := h
  have hsent := sendCoinsFromAccountToModule_sent (getModuleAddress_vault A) hd hn hsend
  -- the bank call left everything but balances as it was
  have hpos : m.positions = s.positions := by rw [hsent.frame]
  have hlocked : m.locked = s.locked := by rw [hsent.frame]
  obtain rfl : found = s.positions.get (positionKey A owner d) := by rw [← hfound, hpos]
  change v.val = (positionOr ctx s owner d).amount.val + n.val at hv
  change setPosition A { positionOr ctx s owner d with amount := v } m = _ at hset
  obtain ⟨howner, hdenom⟩ := hk.positionOr ctx owner d
  rw [setPosition_ok { positionOr ctx s owner d with amount := v } howner] at hset
  subst hset
  rw [show totalLocked _ d = totalLocked s d by simp only [totalLocked, hlocked]] at htotal
  subst htotal
  refine ⟨hd, hn, hsent.toPaid.congr rfl, ⟨v, hv, ?_⟩, ⟨w, hw, by simp only [hlocked]⟩, ?_⟩
  · simp only [hpos, hdenom]
  · rw [hsent.frame]

/-- The value returned is what the counter is clamped from. -/
theorem releaseCollateral_ok (hk : Keyed A s)
    (hp : s.positions.get (positionKey A owner d) = some pos) {total : SdkInt}
    (h : releaseCollateral ctx owner d n pos s = .ok total t) :
    total.val = (totalLocked s d).val - n.val ∧ Released A s t owner d n.val pos ∧
      t = { s with balances := t.balances, positions := t.positions } := by
  simp only [releaseCollateral, getTotalLocked, bind_ok, require_ok, liftM_ok, newCoinsOf_ok,
    mapErr_ok, SdkInt.sub_ok, gets_ok, Bool.not_eq_true', SdkInt.gt_eq_false] at h
  obtain ⟨_, _, ⟨hle, rfl⟩, coins, _, ⟨⟨hd, hn, rfl⟩, rfl⟩, _, m, hsend, v, _, ⟨hv, rfl⟩, _, p, hput,
    before, _, ⟨hbefore, rfl⟩, htotal, rfl⟩ := h
  obtain ⟨hfree, hsent⟩ := sendCoinsFromModuleToAccount_sent (getModuleAddress_vault A) hd hn hsend
  have hpos : m.positions = s.positions := by rw [hsent.frame]
  have hlocked : m.locked = s.locked := by rw [hsent.frame]
  obtain ⟨howner, hdenom⟩ := hk.at hp
  rw [putReduced_ok { pos with amount := v } howner hdenom] at hput
  subst hput
  rw [show totalLocked _ d = totalLocked s d by simp only [totalLocked, hlocked]] at hbefore
  subst hbefore
  refine ⟨htotal, ⟨hd, hn, hle, hfree, hsent.toPaid.congr rfl, ⟨v, hv, ?_⟩⟩, ?_⟩
  · simp only [hpos]
  · rw [hsent.frame]

theorem unlockAfterGuard_ok (hk : Keyed A s)
    (hp : s.positions.get (positionKey A owner d) = some pos)
    (h : unlockAfterGuard ctx owner d n pos s = .ok u t) : Withdrawn A s t owner d n.val pos := by
  simp only [unlockAfterGuard, setTotalLocked, bind_ok, modifyStore_ok] at h
  obtain ⟨total, m, hrel, rfl⟩ := h
  obtain ⟨htotal, hr, hframe⟩ := releaseCollateral_ok hk hp hrel
  have hlocked : m.locked = s.locked := by rw [hframe]
  refine ⟨{ hr with paid := hr.paid.congr rfl }, ⟨total.clampNegative, ?_, ?_⟩, ?_⟩
  · rw [SdkInt.clampNegative_val, htotal]
  · simp only [hlocked]
  · rw [hframe]

/-- The debt guard, whatever the store looks like. -/
theorem unlockCollateral_debtFree (h : unlockCollateral ctx owner d n s = .ok u t) :
    ∃ pos, s.positions.get (positionKey A owner d) = some pos ∧ pos.mintedZYTD.val ≤ 0 := by
  simp only [unlockCollateral, getPosition, bind_ok, lookup_ok, require_ok, Bool.not_eq_true',
    SdkInt.isPositive_eq_false] at h
  obtain ⟨pos, _, ⟨hp, rfl⟩, _, _, ⟨hdebt, rfl⟩, -⟩ := h
  exact ⟨pos, hp, hdebt⟩

theorem unlockCollateral_ok (hk : Keyed A s) (h : unlockCollateral ctx owner d n s = .ok u t) :
    ∃ pos, s.positions.get (positionKey A owner d) = some pos ∧ pos.mintedZYTD.val ≤ 0 ∧
      Withdrawn A s t owner d n.val pos := by
  simp only [unlockCollateral, getPosition, bind_ok, lookup_ok, require_ok, Bool.not_eq_true',
    SdkInt.isPositive_eq_false] at h
  obtain ⟨pos, _, ⟨hp, rfl⟩, _, _, ⟨hdebt, rfl⟩, hrest⟩ := h
  exact ⟨pos, hp, hdebt, unlockAfterGuard_ok hk hp hrest⟩

theorem updateMintedZYTD_ok (hk : Keyed A s) (h : updateMintedZYTD A owner d n s = .ok u t) :
    ∃ pos, Drawn A s t owner d n.val pos := by
  simp only [updateMintedZYTD, getPosition, bind_ok, lookup_ok, liftM_ok, SdkInt.add_ok, require_ok,
    Bool.not_eq_true', SdkInt.isNegative_eq_false] at h
  obtain ⟨pos, _, ⟨hp, rfl⟩, v, _, ⟨hv, rfl⟩, _, _, ⟨hpos, rfl⟩, hset⟩ := h
  obtain ⟨howner, hdenom⟩ := hk.at hp
  rw [setPosition_ok { pos with mintedZYTD := v } howner] at hset
  subst hset
  exact ⟨pos, hp, ⟨v, hv, hpos, by simp only [hdenom]⟩, rfl⟩

end Laws

end Zytherion.CollateralKeeper
