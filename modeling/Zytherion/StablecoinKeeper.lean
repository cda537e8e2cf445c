import Zytherion.CollateralKeeper

/-!
# The stablecoin's keeper

Mint records per owner and denomination, one counter of everything minted, the
parameters, the registry of post-quantum keys, and the oracle's latest price
that the handlers read. The migration schedule decides by block height whether
minting is open and whether a registered key is required.
-/
namespace Zytherion.StablecoinKeeper

open GoCall KeyedStore SdkMath Application ChainState

def stablecoinErr (code : ℕ) (description : String) : Err :=
  .registered "stablecoin" code description

def errZeroMintAmount : Err := stablecoinErr 1501 "ZYTD mint amount must be greater than zero"
def errPositionHealthy : Err := stablecoinErr 1503 "position is healthy, cannot liquidate"
def errOraclePriceUnavailable : Err :=
  stablecoinErr 1504 "oracle TWAP price not available for collateral denom"
def errExceedsCollateralValue : Err :=
  stablecoinErr 1505 "requested ZYTD exceeds allowed mint amount for collateral"
def errMintRecordNotFound : Err :=
  stablecoinErr 1506 "mint record not found for owner and collateral denom"
def errExceedsMintedAmount : Err :=
  stablecoinErr 1507 "burn amount exceeds minted ZYTD for this position"
def errPQCKeyNotRegistered : Err := stablecoinErr 1508
  "no Dilithium5 key registered for this address — call MsgRegisterZYTDKey first"
def errInvalidPQCSig : Err := stablecoinErr 1509 "invalid Dilithium5 signature on ZYTD message"
def errPQCKeyMismatch : Err := stablecoinErr 1510
  "provided Dilithium5 public key does not match the registered key for this address"

def errMigrationMintForbidden : Err := stablecoinErr 1610
  ("ZYTD minting is forbidden during key migration window (Phase 2). " ++
    "Please register your Dilithium5 key via MsgRegisterZYTDKey, " ++
    "then burn existing positions to migrate")
def errHardFreezeNoKey : Err := stablecoinErr 1611
  ("HARD FREEZE: no Dilithium5 key registered for this address. " ++
    "All ZYTD operations require a registered post-quantum key (Phase 3 enforcement active)")
def errHardFreeze : Err := stablecoinErr 1612
  ("HARD FREEZE: invalid or missing Dilithium5 signature. " ++
    "All ZYTD operations must include a valid Dilithium5 signature (Phase 3 enforcement active)")

inductive MigrationPhase where
  | phase1
  | phase2
  | phase3
deriving DecidableEq, Repr

def gracePhaseLockHeight : Int64 := 20000

def gracePhaseHardHeight : Int64 := 50000

def getMigrationPhase (currentHeight : Int64) : MigrationPhase :=
  if currentHeight ≤ gracePhaseLockHeight then .phase1
  else if currentHeight ≤ gracePhaseHardHeight then .phase2
  else .phase3

def checkMintAllowed (currentHeight : Int64) : Except Err Unit :=
  if getMigrationPhase currentHeight = .phase2 then .error errMigrationMintForbidden else .ok ()

def checkHardFreeze (currentHeight : Int64) (hasPQCKey : Bool) : Except Err Unit :=
  if getMigrationPhase currentHeight ≠ .phase3 then .ok ()
  else if !hasPQCKey then .error errHardFreezeNoKey
  else .ok ()

/-- The price the oracle stored last. The reason of a miss is never shown: the
handlers replace it. -/
def getTWAP (denom : String) : Exec TWAPData :=
  lookup (fun s => s.twaps.get ("twap/" ++ denom)) (.plain ("no TWAP found for denom " ++ denom))

def setTWAP (data : TWAPData) : Exec Unit :=
  modifyStore fun s => { s with twaps := s.twaps.set ("twap/" ++ data.denom) data }

def getParams : Exec StablecoinParams := gets fun s => s.params.getD defaultStablecoinParams

def setParams (params : StablecoinParams) : Exec Unit :=
  modifyStore fun s => { s with params := some params }

/-- The key under an owner's text, which is empty for the zero address. -/
def mintRecordTextKey (ownerText ibcDenom : String) : String := "mint/" ++ ownerText ++ "/" ++ ibcDenom

section Keeper
variable (A : App)

def mintRecordKey (owner : AccAddress) (ibcDenom : String) : String :=
  mintRecordTextKey (A.text owner) ibcDenom

def getMintRecord (owner : AccAddress) (ibcDenom : String) : Exec MintRecord :=
  lookup (fun s => s.records.get (mintRecordKey A owner ibcDenom)) errMintRecordNotFound

/-- The owner text is parsed and a failure ignored: such a record is stored under
the zero address. -/
def storedRecordKey (record : MintRecord) : String :=
  match A.accAddressFromBech32 record.owner with
  | .ok owner => mintRecordKey A owner record.ibcDenom
  | .error _ => mintRecordTextKey "" record.ibcDenom

def setMintRecord (record : MintRecord) : Exec Unit :=
  modifyStore fun s => { s with records := s.records.set (storedRecordKey A record) record }

def deleteMintRecord (owner : AccAddress) (ibcDenom : String) : Exec Unit :=
  modifyStore fun s => { s with records := s.records.delete (mintRecordKey A owner ibcDenom) }

/-- What the counter reads, zero when it was never written. -/
def totalSupplyOf (s : State) : SdkInt := s.totalSupply.getD .zero

def getTotalSupply : Exec SdkInt := gets totalSupplyOf

def setTotalSupply (supply : SdkInt) : Exec Unit :=
  modifyStore fun s => { s with totalSupply := some supply }

def pqcKeyRegistryKey (owner : AccAddress) : String := "pqckey/" ++ A.text owner

def getZYTDPQCKey (owner : AccAddress) : Exec (List UInt8) :=
  lookup (fun s => s.pqcKeys.get (pqcKeyRegistryKey A owner)) errPQCKeyNotRegistered

def setZYTDPQCKey (owner : AccAddress) (pubkey : List UInt8) : Exec Unit :=
  modifyStore fun s => { s with pqcKeys := s.pqcKeys.set (pqcKeyRegistryKey A owner) pubkey }

/-- `binary.LittleEndian.PutUint64` of a height. -/
def heightBytes (height : Int64) : List UInt8 :=
  (List.range 8).map fun i => UInt8.ofNat (height.toUInt64.toNat / 256 ^ i)

def buildZYTDMsgHash (sender : AccAddress) (ibcDenom : String) (expiration : Int64) : List UInt8 :=
  A.sha3Sum256 ("zytherion/zytd/v1/".toUTF8.toList ++ sender.bytes ++ ibcDenom.toUTF8.toList ++
    heightBytes expiration)

variable {A} (ctx : Ctx A)

def verifyZYTDPQCSig (sender : AccAddress) (ibcDenom : String) (expiration : Int64)
    (providedPubKey providedSig : List UInt8) : Exec Unit := do
  let phase := getMigrationPhase ctx.height
  let registeredKey ← attempt (getZYTDPQCKey A sender)
  ofExcept (checkHardFreeze ctx.height registeredKey.isSome)
  if !registeredKey.isSome && (phase == .phase1 || phase == .phase2) then
    return ()
  else do
    require (registeredKey.getD [] == providedPubKey) errPQCKeyMismatch
    let msgHash := buildZYTDMsgHash A sender ibcDenom expiration
    require (A.pqcVerify msgHash providedSig providedPubKey)
      (if phase == .phase3 then errHardFreeze else errInvalidPQCSig)

end Keeper

section Laws
variable {A : App} {ctx : Ctx A} {s t : State} {owner : AccAddress} {d : String} {u : Unit}

theorem mintRecordKey_inj {a b : AccAddress} {e : String}
    (h : mintRecordKey A a d = mintRecordKey A b e) : a = b ∧ d = e := A.ownerKey_inj "mint/" h

theorem setMintRecord_ok {record : MintRecord}
    (ho : A.accAddressFromBech32 record.owner = .ok owner) :
    setMintRecord A record s = .ok u t ↔
      { s with records := s.records.set (mintRecordKey A owner record.ibcDenom) record } = t := by
  simp [setMintRecord, storedRecordKey, ho]

/-- The signature check reads the registry and changes nothing. -/
theorem verifyZYTDPQCSig_ok {expiration : Int64} {key sig : List UInt8}
    (h : verifyZYTDPQCSig ctx owner d expiration key sig s = .ok u t) : s = t := by
  simp only [verifyZYTDPQCSig, getZYTDPQCKey, bind_ok, attempt_lookup_ok, ofExcept_ok] at h
  obtain ⟨found, _, ⟨-, rfl⟩, _, _, ⟨-, rfl⟩, hrest⟩ := h
  split at hrest
  · simp only [pure_ok] at hrest
    exact hrest.2
  · simp only [bind_ok, require_ok] at hrest
    obtain ⟨_, _, ⟨-, rfl⟩, -, rfl⟩ := hrest
    rfl

/-- A registered key has to be the one supplied, with a valid signature; without
one the check passes only before the last phase. -/
theorem verifyZYTDPQCSig_checked {expiration : Int64} {key sig : List UInt8}
    (h : verifyZYTDPQCSig ctx owner d expiration key sig s = .ok u t) :
    match s.pqcKeys.get (pqcKeyRegistryKey A owner) with
    | none => getMigrationPhase ctx.height ≠ .phase3
    | some registered => key = registered ∧
        A.pqcVerify (buildZYTDMsgHash A owner d expiration) sig registered = true := by
  simp only [verifyZYTDPQCSig, getZYTDPQCKey, bind_ok, attempt_lookup_ok, ofExcept_ok] at h
  obtain ⟨found, _, ⟨rfl, rfl⟩, _, _, ⟨hfreeze, rfl⟩, hrest⟩ := h
  cases hkey : s.pqcKeys.get (pqcKeyRegistryKey A owner) with
  | none =>
      intro hphase
      simp [checkHardFreeze, hkey, hphase] at hfreeze
  | some registered =>
      simp only [hkey, Option.isSome_some, Option.getD_some, Bool.not_true, Bool.false_and,
        Bool.false_eq_true, if_false, bind_ok, require_ok] at hrest
      obtain ⟨_, _, ⟨hmatch, rfl⟩, hverify, -⟩ := hrest
      obtain rfl := eq_of_beq hmatch
      exact ⟨rfl, hverify⟩

/-- Before the last phase an account without a registered key needs no signature. -/
theorem verifyZYTDPQCSig_unregistered {expiration : Int64} {key sig : List UInt8}
    (hkey : s.pqcKeys.get (pqcKeyRegistryKey A owner) = none)
    (hphase : getMigrationPhase ctx.height = .phase1) :
    verifyZYTDPQCSig ctx owner d expiration key sig s = .ok () s := by
  simp only [verifyZYTDPQCSig, getZYTDPQCKey, bind_ok, attempt_lookup_ok, ofExcept_ok]
  refine ⟨none, s, ⟨hkey, rfl⟩, (), s, ⟨?_, rfl⟩, ?_⟩
  · simp [checkHardFreeze, hphase]
  · simp [hphase]

end Laws

end Zytherion.StablecoinKeeper
