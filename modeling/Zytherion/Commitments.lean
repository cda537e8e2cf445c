import Zytherion.SubmitAgreement

/-!
# One commitment for each account

The privacy module keeps one commitment for each account. `InitCommitment` stores
it after taking a deposit into the module account, `TFHESubmit` after counting the
submission against the sender's quota. Both write the same slot, and neither looks
whether it is taken: only `TFHESubmit` asks for something, the quota, which only
`TFHESubmit` uses up.

A commitment therefore lasts until the next message of its account that succeeds
with another one.
-/
namespace Zytherion.Commitments

open GoCall KeyedStore SdkMath Application ChainState Bank ByteStrings ShardPlacement TfheSubmit

/-- What the handlers of the privacy module work on. -/
structure PrivacyState where
  bank : State
  store : KVStore

abbrev Handler (α : Type) : Type := Call PrivacyState Err α

def onBank {α : Type} (x : Exec α) : Handler α :=
  zoom PrivacyState.bank (fun w b => { w with bank := b }) x

def onStore {α : Type} (x : PrivacyExec α) : Handler α :=
  zoom PrivacyState.store (fun w k => { w with store := k }) x

@[simp] theorem onBank_ok {α : Type} {x : Exec α} {a : α} {w w' : PrivacyState} :
    onBank x w = .ok a w' ↔ ∃ b, x w.bank = .ok a b ∧ { w with bank := b } = w' := zoom_ok ..

@[simp] theorem onStore_ok {α : Type} {x : PrivacyExec α} {a : α} {w w' : PrivacyState} :
    onStore x w = .ok a w' ↔ ∃ k, x w.store = .ok a k ∧ { w with store := k } = w' := zoom_ok ..

structure MsgInitCommitment where
  creator : String
  amount : String
  commitment : List UInt8

/-- The parser of coins and the quoted form of a text. -/
structure CoinLibs where
  parseCoinNormalized : String → Except Err Coin
  quote : String → String

def moduleName : String := "privacy"

def errInvalidCommitment : Err := privacyErr 1103 "invalid commitment bytes"
def errInvalidDepositAmount : Err := privacyErr 1107 "invalid deposit amount"
def errInsufficientBalance : Err := privacyErr 1108 "insufficient balance for deposit"

def validateCommitmentBytes (commitment : List UInt8) : Except Err Unit :=
  if commitment.length ≠ 32 then
    .error (.plain ("commitment must be 32 bytes, got " ++ toString commitment.length))
  else if commitment.all (· == 0) then .error (.plain "commitment must not be the zero value")
  else .ok ()

def getCommitment (addr : AccAddress) (s : KVStore) : Option (List UInt8) :=
  s.get (commitmentKey addr)

section Messages
variable {A : App} (P : CoinLibs) (L : PrivacyLibs)

def initCommitment (ctx : Ctx A) (msg : MsgInitCommitment) : Handler Unit := do
  let creatorAddr ← mapErr
    (fun e => errorf errInvalidAddress ("invalid creator address — " ++ e.text))
    (ofExcept (A.accAddressFromBech32 msg.creator))
  let coin ← mapErr
    (fun e => errorf errInvalidDepositAmount
      (P.quote msg.amount ++ " is not a valid coin — " ++ e.text))
    (ofExcept (P.parseCoinNormalized msg.amount))
  require coin.amount.isPositive
    (errorf errInvalidDepositAmount ("deposit amount must be positive, got " ++ msg.amount))
  let coins ← newCoins [coin]
  mapErr (fun e => errorf errInsufficientBalance ("bank transfer failed — " ++ e.text))
    (onBank (sendCoinsFromAccountToModule ctx creatorAddr moduleName coins))
  mapErr (fun e => errorf errInvalidCommitment e.text)
    (ofExcept (validateCommitmentBytes msg.commitment))
  mapErr (.wrap "failed to store commitment") (onStore (setCommitment creatorAddr msg.commitment))

/-- A message of the module, with the block it runs in or the node that executes it. -/
inductive PrivacyMsg (A : App) where
  | initCommitment (ctx : Ctx A) (msg : MsgInitCommitment)
  | tfheSubmit (monikers : List String) (n : LocalNode) (msg : MsgTFHESubmit)

namespace PrivacyMsg

/-- The account a message names, whatever becomes of it. -/
def account : PrivacyMsg A → Except Err AccAddress
  | initCommitment _ msg => A.accAddressFromBech32 msg.creator
  | tfheSubmit _ _ msg => A.accAddressFromBech32 msg.sender

/-- The commitment it records if it succeeds. -/
def commitment : PrivacyMsg A → List UInt8
  | initCommitment _ msg => msg.commitment
  | tfheSubmit _ _ msg => commitmentOf L msg

def handle : PrivacyMsg A → Handler Unit
  | initCommitment ctx msg => Commitments.initCommitment P ctx msg
  | tfheSubmit monikers n msg => do
      let _ ← onStore (TfheSubmit.tfheSubmit A L monikers n msg)

/-- A delivered message: a failing one is rolled back. -/
def deliver (w : PrivacyState) (m : PrivacyMsg A) : PrivacyState := commit (handle P L m) w

def Succeeds (w : PrivacyState) (m : PrivacyMsg A) : Prop := ∃ w', handle P L m w = .ok () w'

/-- A submission by an account whose quota is used up. -/
def Exhausted (w : PrivacyState) (a : AccAddress) : PrivacyMsg A → Prop
  | initCommitment _ _ => False
  | tfheSubmit _ _ _ => tfheMaxActiveCommitments ≤ getTFHEQuota a w.store

/-- A message by an account that has a commitment names that commitment again, or
is a submission beyond the quota. -/
def Respects (w : PrivacyState) (m : PrivacyMsg A) : Prop :=
  ∀ a c, m.account = .ok a → getCommitment a w.store = some c → m.commitment L = c ∨ m.Exhausted w a

end PrivacyMsg

end Messages

theorem commitmentKey_inj {a b : AccAddress} (h : commitmentKey a = commitmentKey b) : a = b := by
  cases a
  cases b
  simpa [commitmentKey] using h

theorem tfheQuotaKey_ne_commitmentKey (a b : AccAddress) : tfheQuotaKey a ≠ commitmentKey b :=
  labelled_ne 6 (by decide +kernel) (by decide +kernel) (by decide +kernel)

section Effects
variable {A : App} {P : CoinLibs} {L : PrivacyLibs} {w w' : PrivacyState} {m : PrivacyMsg A}
  {a : AccAddress}

theorem getCommitment_set (x y : AccAddress) (c : List UInt8) (s : KVStore) :
    getCommitment x (s.set (commitmentKey y) c) = if x = y then some c else getCommitment x s := by
  unfold getCommitment
  split_ifs with hx
  · rw [hx, Store.get_set_self]
  · exact Store.get_set_ne _ _ fun h => hx (commitmentKey_inj h)

theorem initCommitment_ok {ctx : Ctx A} {msg : MsgInitCommitment}
    (h : initCommitment P ctx msg w = .ok () w') : ∃ creator,
      A.accAddressFromBech32 msg.creator = .ok creator ∧
      w'.store = w.store.set (commitmentKey creator) msg.commitment := by
  simp only [initCommitment, bind_ok, mapErr_ok, ofExcept_ok, require_ok, liftM_ok, onBank_ok,
    onStore_ok, setCommitment, modifyStore_ok] at h
  obtain ⟨creator, _, ⟨hcreator, rfl⟩, _, _, ⟨-, rfl⟩, _, _, ⟨-, rfl⟩, _, _, ⟨-, rfl⟩, _, _,
    ⟨_, -, rfl⟩, _, _, ⟨-, rfl⟩, _, ⟨_, _, ⟨-, rfl⟩, rfl⟩, rfl⟩ := h
  exact ⟨creator, hcreator, rfl⟩

theorem getCommitment_recorded (msg : MsgTFHESubmit) (sender x : AccAddress)
    (tfheMeta : TFHEShardMeta) (s : KVStore) :
    getCommitment x (recorded L msg sender tfheMeta s) =
      if x = sender then some (commitmentOf L msg) else getCommitment x s := by
  have hquota : ∀ (n : ℕ) (k : KVStore),
      getCommitment x (setTFHEQuota sender n k) = getCommitment x k := fun n k =>
    Store.get_set_ne _ _ (tfheQuotaKey_ne_commitmentKey sender x).symm
  have hmeta : getCommitment x (s.set (tfheMetaKey (commitmentOf L msg))
      (marshalTFHEMeta L tfheMeta)) = getCommitment x s :=
    Store.get_set_ne _ _ (tfheMetaKey_ne_commitmentKey _ x).symm
  rw [recorded, hquota, getCommitment_set, hmeta]

/-- A message that succeeds stores its commitment for its account and leaves the
commitments of all others. -/
theorem handle_ok (h : m.handle P L w = .ok () w') : ∃ a, m.account = .ok a ∧ ¬ m.Exhausted w a ∧
    ∀ x, getCommitment x w'.store =
      if x = a then some (m.commitment L) else getCommitment x w.store := by
  cases m with
  | initCommitment ctx msg =>
      obtain ⟨creator, hcreator, hstore⟩ := initCommitment_ok h
      refine ⟨creator, hcreator, id, fun x => ?_⟩
      rw [hstore, getCommitment_set]
      rfl
  | tfheSubmit monikers n msg =>
      simp only [PrivacyMsg.handle, bind_ok, onStore_ok, pure_ok] at h
      obtain ⟨_, _, ⟨_, hsubmit, rfl⟩, -, rfl⟩ := h
      obtain ⟨sender, shards, hadmitted, -, -, rfl⟩ := tfheSubmit_ok.mp hsubmit
      refine ⟨sender, hadmitted.address, not_le.mpr hadmitted.quota, fun x => ?_⟩
      rw [getCommitment_recorded]
      rfl

/-- One delivered message that respects recorded commitments keeps each of them. -/
theorem deliver_keeps (hm : m.Respects L w) {c : List UInt8}
    (hc : getCommitment a w.store = some c) :
    getCommitment a (m.deliver P L w).store = some c := by
  refine commit_preserves (P := fun u : PrivacyState => getCommitment a u.store = some c) hc
    fun _ u hu => ?_
  obtain ⟨b, hb, hexhausted, hstore⟩ := handle_ok hu
  rw [hstore]
  split_ifs with hab
  · subst hab
    rcases hm a c hb hc with heq | hused
    · rw [heq]
    · exact (hexhausted hused).elim
  · exact hc

/-- A run of messages that respect recorded commitments keeps each of them
throughout. -/
theorem run_keeps {ms later : List (PrivacyMsg A)} (hlater : later <+: ms)
    (hms : Along (PrivacyMsg.deliver P L) (PrivacyMsg.Respects L) w ms) {c : List UInt8}
    (hc : getCommitment a w.store = some c) :
    getCommitment a (run (PrivacyMsg.deliver P L) w later).store = some c := by
  induction later generalizing w ms with
  | nil => exact hc
  | cons m later ih =>
      obtain ⟨rest, rfl⟩ := hlater
      exact ih (List.prefix_append later rest) hms.2 (deliver_keeps hms.1 hc)

/-- Once a message succeeds, the commitment it recorded stays for as long as every
message respects recorded commitments. -/
theorem recorded_commitment_survives (before after later : List (PrivacyMsg A))
    (hsucceeds : m.Succeeds P L (run (PrivacyMsg.deliver P L) w before))
    (haccount : m.account = .ok a)
    (hafter : Along (PrivacyMsg.deliver P L) (PrivacyMsg.Respects L)
      (run (PrivacyMsg.deliver P L) w (before ++ [m])) after)
    (hlater : later <+: after) :
    getCommitment a (run (PrivacyMsg.deliver P L) w (before ++ [m] ++ later)).store =
      some (m.commitment L) := by
  rw [run_append]
  refine run_keeps hlater hafter ?_
  obtain ⟨w', hw'⟩ := hsucceeds
  obtain ⟨b, hb, -, hstore⟩ := handle_ok hw'
  obtain rfl : a = b := Except.ok.inj (haccount.symm.trans hb)
  rw [run_snoc, PrivacyMsg.deliver, commit_ok hw', hstore, if_pos rfl]

end Effects

/-! Two deposits of one account. -/

section Deposits
open Devnet SubmitAgreement

def tenCoins : CoinLibs where
  parseCoinNormalized text :=
    if text = "10uzytc" then .ok ⟨"uzytc", .newInt 10⟩ else .error (.plain "invalid decimal coin")
  quote text := "\"" ++ text ++ "\""

def deposit (byte : UInt8) : PrivacyMsg devnet :=
  .initCommitment block ⟨devnet.text alice, "10uzytc", List.replicate 32 byte⟩

/-- A chain on which only the bank has entries. -/
def fresh : PrivacyState := ⟨treasury.blank, ∅⟩

abbrev afterDeposits (ms : List (PrivacyMsg devnet)) : PrivacyState :=
  run (PrivacyMsg.deliver tenCoins sampleLibs) fresh ms

theorem second_deposit_replaces :
    (PrivacyMsg.handle tenCoins sampleLibs (deposit 1) fresh).returned = some () ∧
      getCommitment alice (afterDeposits [deposit 1]).store = some (List.replicate 32 1) ∧
      (PrivacyMsg.handle tenCoins sampleLibs (deposit 2) (afterDeposits [deposit 1])).returned =
        some () ∧
      getCommitment alice (afterDeposits [deposit 1, deposit 2]).store =
        some (List.replicate 32 2) ∧
      (afterDeposits [deposit 1, deposit 2]).bank.held "uzytc" (devnet.newModuleAddress "privacy") =
        20 := by
  decide +kernel

theorem repeated_deposit_survives :
    getCommitment alice (afterDeposits ([] ++ [deposit 1] ++ [deposit 1])).store =
      some (List.replicate 32 1) := by
  have hfirst : (PrivacyMsg.handle tenCoins sampleLibs (deposit 1) fresh).returned = some () ∧
      devnet.accAddressFromBech32 (devnet.text alice) = .ok alice ∧
      getCommitment alice (afterDeposits [deposit 1]).store = some (List.replicate 32 1) := by
    decide +kernel
  obtain ⟨hreturned, haccount, hstored⟩ := hfirst
  refine recorded_commitment_survives [] [deposit 1] [deposit 1] (returned_iff.mp hreturned)
    haccount ⟨fun a c ha hc => .inl ?_, trivial⟩ (List.prefix_refl _)
  obtain rfl : alice = a := Except.ok.inj (haccount.symm.trans ha)
  exact Option.some.inj (hstored.symm.trans hc)

end Deposits

end Zytherion.Commitments
