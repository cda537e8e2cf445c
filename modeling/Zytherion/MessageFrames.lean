import Zytherion.MintRecordKeys
import Zytherion.VaultGenesis
import Zytherion.CreditLimit

/-!
# What a message leaves alone

The vault and the stablecoin keep everything in two stores under texts: a label, the
text of an account and, behind a slash, a denomination. An account's text has no
slash, so that a key determines both even if the denomination has one.

A message reads the entry of one account and one denomination and writes it back
under the key of its own fields. Entries stand under the key of their own fields in
every state that a genesis file and any messages lead to, so that nothing else is
touched.
-/
namespace Zytherion.MessageFrames

open GoCall KeyedStore SdkMath Application ChainState Bank CollateralKeeper StablecoinKeeper
open CollateralMsgServer StablecoinMsgServer VaultFrames MintRecordKeys Chain VaultGenesis
open ConfidentialKeeper CreditLimit Devnet

/-! The keys of the two stores. -/

inductive VaultKey where
  | asset (d : String)
  | position (owner : AccAddress) (d : String)
  | locked (d : String)

inductive StablecoinKey where
  | mintRecord (owner : AccAddress) (d : String)
  | totalSupply
  | params
  | pqcKey (owner : AccAddress)
  | zytdState (owner : AccAddress)
  | userPubKey (owner : AccAddress)

section Keys
variable (A : App)

def VaultKey.text : VaultKey → String
  | asset d => assetKey d
  | position owner d => positionKey A owner d
  | locked d => lockedKey d

def StablecoinKey.text : StablecoinKey → String
  | mintRecord owner d => mintRecordKey A owner d
  | totalSupply => "supply"
  | params => "sc_params"
  | pqcKey owner => pqcKeyRegistryKey A owner
  | zytdState owner => zytdStateKey A owner
  | userPubKey owner => userPubKeyStoreKey A owner

/-- How the texts of a kind of key begin. -/
def VaultKey.label : VaultKey → List Char
  | asset _ => ['a']
  | position _ _ => ['p']
  | locked _ => ['l']

def StablecoinKey.label : StablecoinKey → List Char
  | mintRecord _ _ => ['m', 'i']
  | totalSupply => ['s', 'u']
  | params => ['s', 'c']
  | pqcKey _ => ['p', 'q']
  | zytdState _ => ['e', 'n']
  | userPubKey _ => ['t', 'f']

variable {A}

theorem VaultKey.take_text (key : VaultKey) : (key.text A).toList.take 1 = key.label := by
  cases key <;>
    simp [text, label, assetKey, positionKey, lockedKey]

theorem StablecoinKey.take_text (key : StablecoinKey) :
    (key.text A).toList.take 2 = key.label := by
  cases key <;>
    simp [text, label, mintRecordKey, mintRecordTextKey, pqcKeyRegistryKey, zytdStateKey,
      userPubKeyStoreKey]

/-- No text is the key of two entries of the vault. -/
theorem VaultKey.text_inj : Function.Injective (VaultKey.text A) := by
  intro key key' h
  have hlabel := congrArg (fun text : String => text.toList.take 1) h
  simp only [take_text] at hlabel
  cases key <;> cases key' <;> simp [label] at hlabel
  case asset.asset d e =>
    have hl := congrArg String.toList h
    simp only [text, assetKey, String.toList_append, List.append_cancel_left_eq] at hl
    rw [String.toList_inj.mp hl]
  case position.position owner d owner' e =>
    obtain ⟨rfl, rfl⟩ := positionKey_inj h
    rfl
  case locked.locked d e => rw [lockedKey_inj h]

/-- Nor of two entries of the stablecoin. -/
theorem StablecoinKey.text_inj : Function.Injective (StablecoinKey.text A) := by
  intro key key' h
  have hlabel := congrArg (fun text : String => text.toList.take 2) h
  simp only [take_text] at hlabel
  cases key <;> cases key' <;> simp [label] at hlabel
  case mintRecord.mintRecord owner d owner' e =>
    obtain ⟨rfl, rfl⟩ := mintRecordKey_inj h
    rfl
  case totalSupply.totalSupply => rfl
  case params.params => rfl
  case pqcKey.pqcKey owner owner' => rw [A.textKey_inj "pqckey/" h]
  case zytdState.zytdState owner owner' => rw [zytdStateKey_inj h]
  case userPubKey.userPubKey owner owner' => rw [userPubKeyStoreKey_inj h]

end Keys

/-! What a message may write. -/

/-- Everything but the entries of one account and one denomination is as before. -/
structure Kept (A : App) (owner : AccAddress) (d : String) (s t : State) : Prop where
  positions : ∀ o e, (o, e) ≠ (owner, d) →
    t.positions.get (positionKey A o e) = s.positions.get (positionKey A o e)
  records : ∀ o e, (o, e) ≠ (owner, d) →
    t.records.get (mintRecordKey A o e) = s.records.get (mintRecordKey A o e)
  locked : ∀ e, e ≠ d → totalLocked t e = totalLocked s e
  pqcKeys : ∀ o, o ≠ owner →
    t.pqcKeys.get (pqcKeyRegistryKey A o) = s.pqcKeys.get (pqcKeyRegistryKey A o)
  assets : ∀ e, t.assets.get (assetKey e) = s.assets.get (assetKey e)

/-- In addition, entries stand under their own keys. -/
structure Framed (A : App) (owner : AccAddress) (d : String) (s t : State) : Prop
    extends Kept A owner d s t where
  keyed : Keyed A t
  recordsKeyed : RecordsKeyed A t

theorem Kept.refl (A : App) (owner : AccAddress) (d : String) (s : State) : Kept A owner d s s :=
  ⟨fun _ _ _ => rfl, fun _ _ _ => rfl, fun _ _ => rfl, fun _ _ => rfl, fun _ => rfl⟩

/-- The stores that frames are about. -/
def books (s : State) : Store String CollateralAsset × Store String CollateralPosition ×
    Store String SdkInt × Store String MintRecord × Store String (List UInt8) :=
  (s.assets, s.positions, s.locked, s.records, s.pqcKeys)

section Writes
variable {A : App} {owner : AccAddress} {d : String} {s₀ s : State} {α β : Type}

theorem framed_of_books {x : Exec α} (hx : Keeps books x) :
    Maintains (Framed A owner d s₀) x := by
  refine .of_keeps ?_ hx
  intro s t h hs
  simp only [books, Prod.mk.injEq] at h
  obtain ⟨hassets, hpositions, hlocked, hrecords, hkeys⟩ := h
  refine ⟨⟨?_, ?_, ?_, ?_, ?_⟩, ?_, hs.recordsKeyed.of_records hrecords⟩
  · rw [hpositions]
    exact hs.positions
  · rw [hrecords]
    exact hs.records
  · unfold totalLocked
    rw [hlocked]
    exact hs.locked
  · rw [hkeys]
    exact hs.pqcKeys
  · rw [hassets]
    exact hs.assets
  · intro k pos hget
    rw [hpositions] at hget
    exact hs.keyed k pos hget

theorem after_books {x : Exec α} {f : α → Exec β} (hx : Keeps books x)
    (hf : ∀ a, Maintains (Framed A owner d s₀) (f a)) :
    Maintains (Framed A owner d s₀) (x >>= f) :=
  .bind (framed_of_books hx) hf

theorem books_of_bank {x : Exec α} (hx : Keeps outsideBank x) : Keeps books x := hx.map books

/-- A position that names the account and the denomination. -/
def Named (A : App) (owner : AccAddress) (d : String) (pos : CollateralPosition) : Prop :=
  A.accAddressFromBech32 pos.owner = .ok owner ∧ pos.ibcDenom = d

theorem Framed.putPosition (hs : Framed A owner d s₀ s) (entry : Option CollateralPosition)
    (hentry : ∀ pos, entry = some pos → Named A owner d pos) : Framed A owner d s₀
      { s with positions := s.positions.put (positionKey A owner d) entry } := by
  refine { hs with positions := ?_, keyed := hs.keyed.put entry hentry rfl }
  intro o e hne
  have hkey : positionKey A o e ≠ positionKey A owner d := by
    intro hkey
    obtain ⟨rfl, rfl⟩ := positionKey_inj hkey
    exact hne rfl
  rw [Store.get_put, if_neg hkey]
  exact hs.positions o e hne

theorem setPosition_framed {pos : CollateralPosition} (hpos : Named A owner d pos) :
    Maintains (Framed A owner d s₀) (setPosition A pos) := by
  obtain ⟨howner, rfl⟩ := hpos
  rw [setPosition, howner]
  refine .modifyStore fun s hs => hs.putPosition (some pos) ?_
  rintro _ ⟨⟩
  exact ⟨howner, rfl⟩

theorem deletePosition_framed : Maintains (Framed A owner d s₀) (deletePosition A owner d) :=
  .modifyStore fun _ hs => hs.putPosition none fun _ h => by cases h

theorem setTotalLocked_framed (w : SdkInt) :
    Maintains (Framed A owner d s₀) (setTotalLocked d w) := by
  refine .modifyStore fun s hs => ?_
  refine { hs with locked := ?_ }
  intro e hne
  rw [VaultSolvency.totalLocked_set rfl, if_neg hne]
  exact hs.locked e hne

theorem Framed.putRecord (hs : Framed A owner d s₀ s) (entry : Option MintRecord)
    (hentry : ∀ record, entry = some record →
      storedRecordKey A record = mintRecordKey A owner d) : Framed A owner d s₀
      { s with records := s.records.put (mintRecordKey A owner d) entry } := by
  refine { hs with records := ?_, recordsKeyed := ?_ }
  · intro o e hne
    have hkey : mintRecordKey A o e ≠ mintRecordKey A owner d := by
      intro hkey
      obtain ⟨rfl, rfl⟩ := mintRecordKey_inj hkey
      exact hne rfl
    rw [Store.get_put, if_neg hkey]
    exact hs.records o e hne
  · intro k record hget
    rw [Store.get_put] at hget
    split_ifs at hget with hk
    · rw [hk]
      exact hentry record hget
    · exact hs.recordsKeyed k record hget

theorem setMintRecord_framed {record : MintRecord}
    (hrecord : storedRecordKey A record = mintRecordKey A owner d) :
    Maintains (Framed A owner d s₀) (setMintRecord A record) := by
  rw [setMintRecord, hrecord]
  refine .modifyStore fun s hs => hs.putRecord (some record) ?_
  rintro _ ⟨⟩
  exact hrecord

theorem deleteMintRecord_framed : Maintains (Framed A owner d s₀) (deleteMintRecord A owner d) :=
  .modifyStore fun _ hs => hs.putRecord none fun _ h => by cases h

theorem setZYTDPQCKey_framed (pubkey : List UInt8) :
    Maintains (Framed A owner d s₀) (setZYTDPQCKey A owner pubkey) := by
  refine .modifyStore fun s hs => ?_
  refine { hs with pqcKeys := ?_ }
  intro o hne
  have hkey : pqcKeyRegistryKey A o ≠ pqcKeyRegistryKey A owner := fun hkey =>
    hne (A.textKey_inj "pqckey/" hkey)
  rw [Store.get_set_ne _ _ hkey]
  exact hs.pqcKeys o hne

end Writes

section Handlers
variable {A : App} (ctx : Ctx A) {owner : AccAddress} {d : String} {s₀ : State}

theorem getPosition_named {s t : State} {pos : CollateralPosition} (hs : Framed A owner d s₀ s)
    (h : getPosition A owner d s = .ok pos t) : Named A owner d pos :=
  hs.keyed.at ((lookup_ok _ _).mp h).1

theorem lockCollateral_framed (n : SdkInt) :
    Maintains (Framed A owner d s₀) (lockCollateral ctx owner d n) := by
  have hfresh : ∀ found : Option CollateralPosition,
      (∀ pos, found = some pos → Named A owner d pos) → ∀ n : SdkInt,
        Named A owner d { found.getD (freshPosition A ctx.time owner d) with amount := n } := by
    intro found hfound n
    cases found with
    | none => exact ⟨A.accAddressFromBech32_text owner, rfl⟩
    | some pos => exact hfound pos rfl
  refine after_books (.lookup _ _) fun _ => after_books (.require _ _) fun _ =>
    after_books (.liftM _) fun _ => after_books
      (books_of_bank (.mapErr _ (sendCoinsFromAccountToModule_keeps ctx _ _ _))) fun _ =>
    .bind_of (fun found => ∀ pos, found = some pos → Named A owner d pos)
      (framed_of_books (.attempt (.lookup _ _))) ?_ fun found hfound =>
    after_books (.liftM _) fun _ => .bind (setPosition_framed (hfresh found hfound _)) fun _ =>
    after_books (.gets _) fun _ => after_books (.liftM _) fun _ => setTotalLocked_framed _
  intro s found t hs h pos hpos
  obtain ⟨hget, -⟩ := (attempt_lookup_ok _ _ _).mp h
  exact hs.keyed.at (hget.trans hpos)

theorem unlockCollateral_framed (n : SdkInt) :
    Maintains (Framed A owner d s₀) (unlockCollateral ctx owner d n) := by
  have hreduced : ∀ pos, Named A owner d pos →
      Maintains (Framed A owner d s₀) (putReduced A owner d pos) := fun pos hpos =>
    .ite deletePosition_framed (setPosition_framed hpos)
  have hrelease : ∀ pos, Named A owner d pos →
      Maintains (Framed A owner d s₀) (releaseCollateral ctx owner d n pos) := fun pos hpos =>
    after_books (.require _ _) fun _ => after_books (.liftM _) fun _ => after_books
      (books_of_bank (.mapErr _ (sendCoinsFromModuleToAccount_keeps ctx _ _ _))) fun _ =>
    after_books (.liftM _) fun _ => .bind (hreduced _ hpos) fun _ =>
    framed_of_books (.bind (.gets _) fun _ => .liftM _)
  exact .bind_of (Named A owner d) (framed_of_books (.lookup _ _))
    (fun _ _ _ hs h => getPosition_named hs h) fun pos hpos =>
    after_books (.require _ _) fun _ => .bind (hrelease pos hpos) fun _ => setTotalLocked_framed _

theorem updateMintedZYTD_framed (n : SdkInt) :
    Maintains (Framed A owner d s₀) (updateMintedZYTD A owner d n) :=
  .bind_of (Named A owner d) (framed_of_books (.lookup _ _))
    (fun _ _ _ hs h => getPosition_named hs h) fun _ hpos =>
    after_books (.liftM _) fun _ => after_books (.require _ _) fun _ => setPosition_framed hpos

theorem lockAndIssue_framed {terms : MintTerms} (hsender : terms.sender = owner) :
    Maintains (Framed A owner d s₀) (lockAndIssue ctx d terms) := by
  subst hsender
  exact .bind (.mapErr _ (lockCollateral_framed ctx _)) fun _ => after_books (.liftM _) fun _ =>
    after_books (books_of_bank (.mapErr _ (mintCoins_keeps _ _))) fun _ => after_books
      (books_of_bank (.mapErr _ (sendCoinsFromModuleToAccount_keeps ctx _ _ _))) fun _ =>
    .mapErr _ (updateMintedZYTD_framed _)

/-- A record that is added to names the sender and the denomination of the request. -/
theorem accumulateRecord_stored {existing : Option MintRecord} {record result : MintRecord}
    (h : accumulateRecord existing record = .ok result) :
    storedRecordKey A result = storedRecordKey A record := by
  cases existing with
  | none =>
      cases h
      rfl
  | some old =>
      simp only [accumulateRecord, checked_bind_ok] at h
      obtain ⟨minted, -, collateralUSD, -, h⟩ := h
      cases h
      rfl

theorem recordMint_framed {req : MsgMintZYTD}
    (hparse : A.accAddressFromBech32 req.sender = .ok owner) (hdenom : req.ibcDenom = d)
    (terms : MintTerms) :
    Maintains (Framed A owner d s₀) (recordMint ctx req terms) := by
  refine after_books (.attempt (.lookup _ _)) fun existing =>
    .bind_of (fun record => storedRecordKey A record = mintRecordKey A owner d)
      (framed_of_books (.liftM _)) ?_ fun _ hrecord => .bind (setMintRecord_framed hrecord) fun _ =>
    framed_of_books (.bind (.gets _) fun _ => .bind (.liftM _) fun _ => .modifyStore fun _ => rfl)
  intro s record t _ h
  rw [accumulateRecord_stored ((liftM_ok _).mp h).1, storedRecordKey, hparse, hdenom]

theorem mintZYTD_framed {req : MsgMintZYTD} (hparse : A.accAddressFromBech32 req.sender = .ok owner)
    (hdenom : req.ibcDenom = d) : Maintains (Framed A owner d s₀) (mintZYTD ctx req) := by
  refine .bind_of (fun terms => terms.sender = owner)
    (framed_of_books (mintTerms_keeps ctx _ req)) ?_ fun terms hsender =>
    .bind (hdenom ▸ lockAndIssue_framed ctx hsender) fun _ =>
    .bind (recordMint_framed ctx hparse hdenom terms) fun _ =>
    framed_of_books (.bind (.liftM _) fun _ => .pure _)
  intro s terms t _ h
  obtain ⟨-, hsender, -⟩ := mintTerms_ok h
  exact Except.ok.inj (hsender.symm.trans hparse)

theorem settleRecord_framed {record : MintRecord}
    (hrecord : storedRecordKey A record = mintRecordKey A owner d) (newMinted : SdkInt)
    (ratio : Dec) :
    Maintains (Framed A owner d s₀) (settleRecord A owner d record newMinted ratio) :=
  .ite deleteMintRecord_framed (after_books (.liftM _) fun _ => after_books (.liftM _) fun _ =>
    setMintRecord_framed hrecord)

theorem burnZYTD_framed {req : MsgBurnZYTD} (hparse : A.accAddressFromBech32 req.sender = .ok owner)
    (hdenom : req.ibcDenom = d) : Maintains (Framed A owner d s₀) (burnZYTD ctx req) := by
  subst hdenom
  have hrecord : ∀ s record t, Framed A owner req.ibcDenom s₀ s →
      mapErr (fun _ => errMintRecordNotFound) (getMintRecord A owner req.ibcDenom) s =
        .ok record t → storedRecordKey A record = mintRecordKey A owner req.ibcDenom := by
    intro s record t hs h
    exact hs.recordsKeyed _ record ((lookup_ok _ _).mp ((mapErr_ok ..).mp h)).1
  have hbefore : Maintains (Framed A owner req.ibcDenom s₀) (burnBeforeSupply ctx req) :=
    .bind_read (fun _ => address_ok.mpr ⟨hparse, rfl⟩) (after_books
      (verifyZYTDPQCSig_keeps ctx _ _ _ _ _ _) fun _ =>
      .bind_of (fun record => storedRecordKey A record = mintRecordKey A owner req.ibcDenom)
        (framed_of_books (.mapErr _ (.lookup _ _))) hrecord fun _ hstored =>
      after_books (.liftM _) fun _ =>
      after_books (.require _ _) fun _ =>
      after_books (books_of_bank (burnFrom_keeps ctx _ _ _ _)) fun _ =>
      after_books (.mapErr _ (.lookup _ _)) fun _ =>
      after_books (.liftM _) fun _ =>
      after_books (.liftM _) fun _ =>
      .bind (.mapErr _ (unlockCollateral_framed ctx _)) fun _ =>
      .bind (.mapErr _ (updateMintedZYTD_framed _)) fun _ =>
      after_books (.liftM _) fun _ =>
      .bind (settleRecord_framed hstored _ _) fun _ =>
      framed_of_books (.bind (.gets _) fun _ => .bind (.liftM _) fun _ => .pure _))
  exact .bind hbefore fun _ =>
    framed_of_books (.bind (.modifyStore fun _ => rfl) fun _ => .pure _)

theorem liquidationTarget_owner {req : MsgLiquidate} {target : LiquidationTarget} {s t : State}
    (h : liquidationTarget ctx req s = .ok target t) :
    A.accAddressFromBech32 req.targetOwner = .ok target.targetOwner := by
  simp only [liquidationTarget, bind_ok, address_ok, pure_ok] at h
  obtain ⟨_, _, -, _, _, ⟨howner, -⟩, _, _, -, _, _, -, _, _, -, _, _, -, _, _, -, _, _, -, _, _, -,
    _, _, -, rfl, -⟩ := h
  exact howner

theorem liquidate_framed {req : MsgLiquidate}
    (hparse : A.accAddressFromBech32 req.targetOwner = .ok owner) (hdenom : req.ibcDenom = d) :
    Maintains (Framed A owner d s₀) (liquidate ctx req) := by
  subst hdenom
  have hbefore : Maintains (Framed A owner req.ibcDenom s₀) (liquidateBeforeSupply ctx req) := by
    refine .bind_of (fun target => target.targetOwner = owner)
      (framed_of_books (liquidationTarget_keeps ctx _ req)) ?_ fun target howner => ?_
    · intro s target t _ h
      exact Except.ok.inj ((liquidationTarget_owner ctx h).symm.trans hparse)
    · subst howner
      exact after_books (.gets _) fun _ =>
        after_books (.liftM _) fun _ =>
        after_books (books_of_bank (burnFrom_keeps ctx _ _ _ _)) fun _ =>
        .bind (.mapErr _ (unlockCollateral_framed ctx _)) fun _ =>
        after_books (books_of_bank (payReward_keeps ctx _ _ _)) fun _ =>
        after_books (books_of_bank (payFee_keeps ctx _ _ _)) fun _ =>
        .bind (.mapErr _ (updateMintedZYTD_framed _)) fun _ =>
        .bind deleteMintRecord_framed fun _ =>
        framed_of_books (.bind (.gets _) fun _ => .bind (.liftM _) fun _ => .pure _)
  exact .bind hbefore fun _ =>
    framed_of_books (.bind (.modifyStore fun _ => rfl) fun _ => .pure _)

theorem msgLockCollateral_framed {msg : MsgLockCollateral}
    (hparse : A.accAddressFromBech32 msg.owner = .ok owner) (hdenom : msg.ibcDenom = d) :
    Maintains (Framed A owner d s₀) (msgLockCollateral ctx msg) := by
  subst hdenom
  exact .bind_read (fun _ => ownerAddress_ok.mpr ⟨hparse, rfl⟩) (after_books (.liftM _) fun _ =>
    .bind (lockCollateral_framed ctx _) fun _ =>
    framed_of_books (.bind (.mapErr _ (.lookup _ _)) fun _ => .pure _))

theorem msgUnlockCollateral_framed {msg : MsgUnlockCollateral}
    (hparse : A.accAddressFromBech32 msg.owner = .ok owner) (hdenom : msg.ibcDenom = d) :
    Maintains (Framed A owner d s₀) (msgUnlockCollateral ctx msg) := by
  subst hdenom
  exact .bind_read (fun _ => ownerAddress_ok.mpr ⟨hparse, rfl⟩) (after_books (.lookup _ _) fun _ =>
    after_books (.liftM _) fun _ => .bind (unlockCollateral_framed ctx _) fun _ =>
    framed_of_books (.bind (.liftM _) fun _ => .pure _))

theorem registerZYTDKey_framed {msg : MsgRegisterZYTDKey}
    (hparse : A.accAddressFromBech32 msg.sender = .ok owner) :
    Maintains (Framed A owner d s₀) (registerZYTDKey A msg) :=
  .bind_read (fun _ => address_ok.mpr ⟨hparse, rfl⟩)
    (.bind (setZYTDPQCKey_framed _) fun _ => framed_of_books (.pure _))

end Handlers

/-! Messages and runs. -/

/-- The account and the denomination a message is about: the sender's, or those of the
position to be liquidated. A registration is about no denomination in particular. -/
def Concerns {A : App} (owner : AccAddress) (d : String) : Event A → Prop
  | .storeTWAP _ => False
  | .lock _ msg => A.accAddressFromBech32 msg.owner = .ok owner ∧ msg.ibcDenom = d
  | .unlock _ msg => A.accAddressFromBech32 msg.owner = .ok owner ∧ msg.ibcDenom = d
  | .mint _ msg => A.accAddressFromBech32 msg.sender = .ok owner ∧ msg.ibcDenom = d
  | .burn _ msg => A.accAddressFromBech32 msg.sender = .ok owner ∧ msg.ibcDenom = d
  | .liquidate _ msg => A.accAddressFromBech32 msg.targetOwner = .ok owner ∧ msg.ibcDenom = d
  | .register msg => A.accAddressFromBech32 msg.sender = .ok owner

section Events
variable {A : App} {owner : AccAddress} {d : String} {s₀ s t : State}

theorem handled_framed {α : Type} {validate : Exec Unit} {handler : Exec α}
    (hv : Keeps books validate) (hh : Maintains (Framed A owner d s₀) handler) :
    Maintains (Framed A owner d s₀) (handled validate handler) :=
  after_books hv fun _ => .bind hh fun _ => framed_of_books (.pure _)

theorem event_framed {e : Event A} (h : Concerns owner d e) :
    Maintains (Framed A owner d s₀) e.exec := by
  have hfields : ∀ who denom amount, Keeps books (validateFields A who denom amount) :=
    fun _ _ _ => .bind (.mapErr _ (.ofExcept _)) fun _ => .bind (.require _ _) fun _ =>
      .bind (.liftM _) fun _ => .require _ _
  cases e with
  | storeTWAP data => exact h.elim
  | lock ctx msg => exact handled_framed (hfields _ _ _) (msgLockCollateral_framed ctx h.1 h.2)
  | unlock ctx msg => exact handled_framed (hfields _ _ _) (msgUnlockCollateral_framed ctx h.1 h.2)
  | mint ctx msg =>
      exact handled_framed (.bind (address_keeps _ _ _) fun _ => .bind (.require _ _) fun _ =>
        .bind (.require _ _) fun _ => .bind (.require _ _) fun _ => .require _ _)
        (mintZYTD_framed ctx h.1 h.2)
  | burn ctx msg =>
      exact handled_framed (.bind (address_keeps _ _ _) fun _ => .bind (.require _ _) fun _ =>
        .bind (.require _ _) fun _ => .require _ _) (burnZYTD_framed ctx h.1 h.2)
  | liquidate ctx msg =>
      exact handled_framed (.bind (address_keeps _ _ _) fun _ => .bind (address_keeps _ _ _)
        fun _ => .bind (.require _ _) fun _ => .require _ _) (liquidate_framed ctx h.1 h.2)
  | register msg =>
      exact handled_framed (.bind (address_keeps _ _ _) fun _ => .bind (.require _ _) fun _ =>
        .require _ _) (registerZYTDKey_framed h)

/-- A message that was delivered concerns somebody. -/
theorem concerns_of_ok {e : Event A} {u : Unit} (h : e.exec s = .ok u t) :
    (∃ data, e = .storeTWAP data) ∨ ∃ owner d, Concerns owner d e := by
  cases e with
  | storeTWAP data => exact .inl ⟨data, rfl⟩
  | lock ctx msg =>
      obtain ⟨_, _, _, -, hh⟩ := handled_ok.mp h
      obtain ⟨owner, -, hparse, -⟩ := msgLockCollateral_ok hh
      exact .inr ⟨owner, _, hparse, rfl⟩
  | unlock ctx msg =>
      obtain ⟨_, _, _, hv, -⟩ := handled_ok.mp h
      obtain ⟨⟨owner, hparse⟩, -⟩ := validateFields_ok.mp hv
      exact .inr ⟨owner, _, hparse, rfl⟩
  | mint ctx msg =>
      obtain ⟨_, _, _, hv, -⟩ := handled_ok.mp h
      simp only [MsgMintZYTD.validateBasic, bind_ok, address_ok] at hv
      obtain ⟨owner, _, ⟨hparse, -⟩, -⟩ := hv
      exact .inr ⟨owner, _, hparse, rfl⟩
  | burn ctx msg =>
      obtain ⟨_, _, _, hv, -⟩ := handled_ok.mp h
      simp only [MsgBurnZYTD.validateBasic, bind_ok, address_ok] at hv
      obtain ⟨owner, _, ⟨hparse, -⟩, -⟩ := hv
      exact .inr ⟨owner, _, hparse, rfl⟩
  | liquidate ctx msg =>
      obtain ⟨_, _, _, hv, -⟩ := handled_ok.mp h
      simp only [MsgLiquidate.validateBasic, bind_ok, address_ok] at hv
      obtain ⟨_, _, -, owner, _, ⟨hparse, -⟩, -⟩ := hv
      exact .inr ⟨owner, _, hparse, rfl⟩
  | register msg =>
      obtain ⟨_, _, _, hv, -⟩ := handled_ok.mp h
      simp only [MsgRegisterZYTDKey.validateBasic, bind_ok, address_ok] at hv
      obtain ⟨owner, _, ⟨hparse, -⟩, -⟩ := hv
      exact .inr ⟨owner, "", hparse⟩

/-- Entries under their own keys. -/
structure WellKept (A : App) (s : State) : Prop where
  keyed : Keyed A s
  recordsKeyed : RecordsKeyed A s

theorem WellKept.framed (hs : WellKept A s) (owner : AccAddress) (d : String) :
    Framed A owner d s s := ⟨.refl A owner d s, hs.keyed, hs.recordsKeyed⟩

theorem wellKept_of_keeps {α : Type} {x : Exec α}
    (hx : Keeps (fun s : State => (s.positions, s.records)) x) : Maintains (WellKept A) x := by
  refine .of_keeps ?_ hx
  intro s t h hs
  simp only [Prod.mk.injEq] at h
  refine ⟨?_, hs.recordsKeyed.of_records h.2⟩
  intro k pos hget
  rw [h.1] at hget
  exact hs.keyed k pos hget

/-- A position is written under its own key or not at all. -/
theorem setPosition_wellKept (pos : CollateralPosition) :
    Maintains (WellKept A) (setPosition A pos) := by
  unfold setPosition
  cases hparse : A.accAddressFromBech32 pos.owner with
  | error e => exact wellKept_of_keeps (.pure _)
  | ok owner =>
      refine .modifyStore fun s hs => ⟨hs.keyed.put (some pos) ?_ rfl, hs.recordsKeyed⟩
      rintro _ ⟨⟩
      exact ⟨hparse, rfl⟩

theorem setMintRecord_wellKept (record : MintRecord) :
    Maintains (WellKept A) (setMintRecord A record) := fun s t h hs =>
  ⟨fun k pos hget => hs.keyed k pos (by cases h; exact hget),
    setMintRecord_maintains record s t h hs.recordsKeyed⟩

theorem step_wellKept (hs : WellKept A s) (e : Event A) : WellKept A (Chain.step s e) := by
  rcases commit_cases e.exec s with ⟨u, h⟩ | ⟨-, h⟩
  · rcases concerns_of_ok h with ⟨data, rfl⟩ | ⟨owner, d, hconcerns⟩
    · cases h
      exact ⟨hs.keyed, hs.recordsKeyed⟩
    · have hframed := (event_framed hconcerns).ok h (hs.framed owner d)
      exact ⟨hframed.keyed, hframed.recordsKeyed⟩
  · rw [Chain.step, h]
    exact hs

end Events

/-- The stores of the two modules, within the state of the chain. -/
structure Stores where
  chain : State
  accounts : Accounts

/-- What may happen to them: a message or a price, a confidential call, with the library
as it behaves in that call, or any change of the rest of the chain. -/
inductive Input (A : App) where
  | event (e : Event A)
  | confidential (tfhe : TfheOps) (call : ConfInput A)
  | outside (rest : State)

/-- The state `rest` with the stores of the two modules as they are in `s`. -/
def within (s rest : State) : State :=
  { rest with
    assets := s.assets, positions := s.positions, locked := s.locked, params := s.params
    records := s.records, totalSupply := s.totalSupply, pqcKeys := s.pqcKeys }

section Runs
variable {A : App}

def proceed (w : Stores) : Input A → Stores
  | .event e => { w with chain := Chain.step w.chain e }
  | .confidential tfhe call => { w with accounts := advance tfhe w.accounts call }
  | .outside rest => { w with chain := within w.chain rest }

variable (A) in
/-- The chain started from the genesis files of the two modules. -/
def started (gs : GenesisState) (sg : StablecoinGenesis) (rest : State) : Stores where
  chain := commit (do VaultGenesis.initGenesis A gs; initStablecoin A sg)
    { rest with
      assets := ∅, positions := ∅, locked := ∅, params := none, records := ∅
      totalSupply := none, pqcKeys := ∅ }
  accounts := noAccounts

theorem started_wellKept (gs : GenesisState) (sg : StablecoinGenesis) (rest : State) :
    WellKept A (started A gs sg rest).chain := by
  have hasset : ∀ asset, Maintains (WellKept A) (initAsset asset) := fun asset =>
    wellKept_of_keeps (.must _ (.bind (.require _ _) fun _ => .modifyStore fun _ => rfl))
  have hposition : ∀ p, Maintains (WellKept A) (initPosition A p) := fun p =>
    .bind (setPosition_wellKept _) fun _ => wellKept_of_keeps
      (.bind (.gets _) fun _ => .bind (.liftM _) fun _ => .modifyStore fun _ => rfl)
  have hvault : Maintains (WellKept A) (VaultGenesis.initGenesis A gs) :=
    .bind (.forM hasset _) fun _ => .forM hposition _
  have hstablecoin : Maintains (WellKept A) (initStablecoin A sg) :=
    .bind (wellKept_of_keeps (.modifyStore fun _ => rfl)) fun _ =>
      .bind (wellKept_of_keeps (.modifyStore fun _ => rfl)) fun _ =>
      .forM setMintRecord_wellKept _
  refine Maintains.commit (.bind hvault fun _ => hstablecoin) ⟨?_, ?_⟩
  · intro k pos hget
    cases hget
  · intro k record hget
    cases hget

theorem proceed_wellKept {w : Stores} (hw : WellKept A w.chain) (i : Input A) :
    WellKept A (proceed w i).chain := by
  cases i with
  | event e => exact step_wellKept hw e
  | confidential tfhe call => exact hw
  | outside rest => exact ⟨hw.keyed, hw.recordsKeyed⟩

theorem run_wellKept (gs : GenesisState) (sg : StablecoinGenesis) (rest : State)
    (inputs : List (Input A)) : WellKept A (run proceed (started A gs sg rest) inputs).chain :=
  run_invariant (fun w : Stores => WellKept A w.chain) (fun _ => True)
    (fun _ i _ hw => proceed_wellKept hw i) inputs _ (started_wellKept gs sg rest)
    fun _ _ => trivial

end Runs

/-- Everything of other accounts and other denominations is as before. -/
structure OthersKept (A : App) (owner : AccAddress) (d : String) (w w' : Stores) : Prop
    extends Kept A owner d w.chain w'.chain where
  tfheKeys : ∀ o, o ≠ owner → w'.accounts.pubKeys.get (userPubKeyStoreKey A o) =
    w.accounts.pubKeys.get (userPubKeyStoreKey A o)
  confidential : ∀ o, o ≠ owner → accountState A w'.accounts o = accountState A w.accounts o

/-- In every state that any genesis files, any messages and any other changes of the chain
lead to, a message about one account and one denomination leaves everything of all
other accounts and denominations as it was, and no two entries of a store share a key. -/
theorem messages_keep_others (A : App) (gs : GenesisState) (sg : StablecoinGenesis) (rest : State)
    (inputs : List (Input A)) :
    Function.Injective (VaultKey.text A) ∧ Function.Injective (StablecoinKey.text A) ∧
      ∀ (e : Event A) (owner : AccAddress) (d : String), Concerns owner d e →
        OthersKept A owner d (run proceed (started A gs sg rest) inputs)
          (run proceed (started A gs sg rest) (inputs ++ [.event e])) := by
  refine ⟨VaultKey.text_inj, StablecoinKey.text_inj, ?_⟩
  intro e owner d hconcerns
  have hframed : Framed A owner d (run proceed (started A gs sg rest) inputs).chain
      (Chain.step (run proceed (started A gs sg rest) inputs).chain e) :=
    (event_framed hconcerns).commit ((run_wellKept gs sg rest inputs).framed owner d)
  rw [run_snoc]
  exact ⟨hframed.toKept, fun _ _ => rfl, fun _ _ => rfl⟩

/-- A chain that starts with a position of `bob`. -/
def bobStarts : Stores :=
  started devnet ⟨defaultFile, [entry (devnet.text bob)]⟩ defaultStablecoinGenesis treasury.blank

def aliceLock : Event devnet := .lock block ⟨devnet.text alice, "uzytc", some (.newInt 1000)⟩

theorem aliceLock_keeps_others :
    OthersKept devnet alice "uzytc" bobStarts (run proceed bobStarts [.event aliceLock]) :=
  (messages_keep_others devnet _ _ _ []).2.2 aliceLock alice "uzytc"
    ⟨devnet.accAddressFromBech32_text alice, rfl⟩

end Zytherion.MessageFrames
