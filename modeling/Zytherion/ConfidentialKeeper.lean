import Zytherion.ChainState

/-!
# The confidential balances

An account's balance is a ciphertext of 32 bits next to a public limit of 64
bits that says how much may be sent. Minting and receiving add to both, sending
subtracts from both. The encryption library is linked: `Tfhe` collects its
operations with what they document, that adding and subtracting ciphertexts adds
and subtracts the plaintexts modulo `2 ^ 32`.
-/
namespace Zytherion.ConfidentialKeeper

open GoCall KeyedStore Application ChainState

/-- The operations of the linked encryption library that the keeper calls. -/
structure TfheOps where
  encryptWithPublicKey : (pubKey : List UInt8) → UInt32 → Except Err (List UInt8)
  encryptWithServerKey : (serverKey : List UInt8) → UInt32 → Except Err (List UInt8)
  addUint32 : (serverKey ct₁ ct₂ : List UInt8) → Except Err (List UInt8)
  subUint32 : (serverKey ct₁ ct₂ : List UInt8) → Except Err (List UInt8)

/-- The linked encryption library, and the value a ciphertext stands for under
the key configuration all balances share. -/
structure Tfhe extends TfheOps where
  decrypt : List UInt8 → UInt32
  encryptWithPublicKey_ok : ∀ key m ct, encryptWithPublicKey key m = .ok ct →
    ct ≠ [] ∧ decrypt ct = m
  encryptWithServerKey_ok : ∀ key m ct, encryptWithServerKey key m = .ok ct →
    ct ≠ [] ∧ decrypt ct = m
  addUint32_ok : ∀ key c₁ c₂ ct, addUint32 key c₁ c₂ = .ok ct →
    ct ≠ [] ∧ decrypt ct = decrypt c₁ + decrypt c₂
  subUint32_ok : ∀ key c₁ c₂ ct, subUint32 key c₁ c₂ = .ok ct →
    ct ≠ [] ∧ decrypt ct = decrypt c₁ - decrypt c₂

instance : Coe Tfhe TfheOps := ⟨Tfhe.toTfheOps⟩

structure ZYTDAccountState where
  encryptedBalance : List UInt8
  publicCreditLimit : UInt64
  lastUpdatedBlock : Int64
  sizeBytes : Int64
deriving DecidableEq

/-- The part of the stablecoin's store the confidential accounts live in. -/
structure Accounts where
  states : Store String ZYTDAccountState
  pubKeys : Store String (List UInt8)

abbrev ConfExec (α : Type) : Type := Call Accounts Err α

def maxUint64 : UInt64 := 0xffffffffffffffff

def maxUint32 : UInt64 := 0xffffffff

section Keeper
variable (A : App)

def zytdStateKey (addr : AccAddress) : String := "enc_zytd_v2/" ++ A.text addr

def userPubKeyStoreKey (addr : AccAddress) : String := "tfhe_pubkey/" ++ A.text addr

/-- The zero state for an account that has none. -/
def accountState (s : Accounts) (addr : AccAddress) : ZYTDAccountState :=
  (s.states.get (zytdStateKey A addr)).getD ⟨[], 0, 0, 0⟩

def getZYTDAccountState (addr : AccAddress) : ConfExec ZYTDAccountState :=
  gets fun s => accountState A s addr

def setZYTDAccountState (addr : AccAddress) (state : ZYTDAccountState) : ConfExec Unit :=
  modifyStore fun s => { s with states := s.states.set (zytdStateKey A addr) state }

def minPubKeyBytes : ℕ := 1024

def setUserTFHEPublicKey (addr : AccAddress) (pubKey : List UInt8) : ConfExec Unit := do
  require (pubKey.length != 0) (.plain "stablecoin: TFHE public key must not be empty")
  require (!decide (pubKey.length < minPubKeyBytes))
    (.plain ("stablecoin: TFHE public key too small (" ++ toString pubKey.length ++
      " bytes) — expected >= " ++ toString minPubKeyBytes ++
      " bytes for a valid CompressedPublicKey"))
  modifyStore fun s => { s with pubKeys := s.pubKeys.set (userPubKeyStoreKey A addr) pubKey }

/-- The limit is capped where the sum of 64 bits wraps. -/
def raiseLimit (limit amount : UInt64) : UInt64 :=
  let newLimit := limit + amount
  if newLimit < limit then maxUint64 else newLimit

variable {A} (T : TfheOps) (ctx : Ctx A)

variable (A) in
def storeBalance (height : Int64) (addr : AccAddress) (ct : List UInt8) (limit : UInt64) :
    ConfExec Unit :=
  setZYTDAccountState A addr ⟨ct, limit, height, Int64.ofNat ct.length⟩

/-- The first amount is the balance, a later one is added to it. -/
def addToBalance (serverKey balance encAmount : List UInt8) : Except Err (List UInt8) :=
  if balance.length = 0 then .ok encAmount else T.addUint32 serverKey balance encAmount

/-- What minting does to its recipient and a transfer to the receiving side. The
texts are the caller's. -/
def creditAccount (recipient : AccAddress) (amount : UInt64) (serverKey : List UInt8)
    (keyAdvice encryptContext addContext : String) : ConfExec Unit := do
  let userPubKey ← lookup (fun s => s.pubKeys.get (userPubKeyStoreKey A recipient))
    (.plain ("stablecoin: recipient " ++ A.text recipient ++
      " has no registered TFHE public key — " ++ keyAdvice))
  let encAmount ← mapErr (.wrap encryptContext)
    (ofExcept (T.encryptWithPublicKey userPubKey amount.toUInt32))
  let state ← getZYTDAccountState A recipient
  let newBalanceCT ← mapErr (.wrap addContext)
    (ofExcept (addToBalance T serverKey state.encryptedBalance encAmount))
  storeBalance A ctx.height recipient newBalanceCT (raiseLimit state.publicCreditLimit amount)

def confidentialMintZYTD (recipient : AccAddress) (mintAmount : UInt32) (serverKey : List UInt8) :
    ConfExec Unit := do
  require (mintAmount != 0) (.plain "stablecoin: mint amount must be > 0")
  require (serverKey.length != 0) (.plain "stablecoin: server key must not be empty")
  creditAccount T ctx recipient mintAmount.toUInt64 serverKey
    "call MsgRegisterUserTFHEPublicKey first"
    "stablecoin: encrypt mint amount with user public key"
    "stablecoin: homomorphic add during mint"

/-- The sending side of a transfer. -/
def debitAccount (sender : AccAddress) (amount : UInt64) (serverKey : List UInt8) :
    ConfExec Unit := do
  let senderState ← getZYTDAccountState A sender
  require (senderState.encryptedBalance.length != 0)
    (.plain ("stablecoin: sender " ++ A.text sender ++ " has no encrypted ZYTD balance"))
  require (!decide (senderState.publicCreditLimit < amount))
    (.plain ("stablecoin: transfer amount " ++ toString amount ++ " exceeds sender credit limit " ++
      toString senderState.publicCreditLimit ++ " — insufficient ZYTD balance"))
  let encAmount ← mapErr (.wrap "stablecoin: encrypt transfer amount")
    (ofExcept (T.encryptWithServerKey serverKey amount.toUInt32))
  let newSenderCT ← mapErr (.wrap "stablecoin: homomorphic sub (sender deduction)")
    (ofExcept (T.subUint32 serverKey senderState.encryptedBalance encAmount))
  storeBalance A ctx.height sender newSenderCT (senderState.publicCreditLimit - amount)

def confidentialTransferZYTD (sender recipient : AccAddress) (plaintextAmount : UInt64)
    (serverKey : List UInt8) : ConfExec Unit := do
  require (plaintextAmount != 0) (.plain "stablecoin: transfer amount must be > 0")
  require (!decide (maxUint32 < plaintextAmount))
    (.plain ("stablecoin: transfer amount " ++ toString plaintextAmount ++
      " overflows uint32 — ZYTD balances are FheUint32"))
  require (serverKey.length != 0) (.plain "stablecoin: server key must not be empty")
  debitAccount T ctx sender plaintextAmount serverKey
  creditAccount T ctx recipient plaintextAmount serverKey
    "they must call MsgRegisterUserTFHEPublicKey before receiving"
    "stablecoin: encrypt transfer amount for recipient"
    "stablecoin: homomorphic add (recipient credit)"

end Keeper

section Inversion
variable {A : App} {T : TfheOps} {ctx : Ctx A} {s t : Accounts} {a : AccAddress} {u : Unit}

theorem zytdStateKey_inj {a b : AccAddress} (h : zytdStateKey A a = zytdStateKey A b) : a = b :=
  A.textKey_inj _ h

theorem userPubKeyStoreKey_inj {a b : AccAddress}
    (h : userPubKeyStoreKey A a = userPubKeyStoreKey A b) : a = b :=
  A.textKey_inj _ h

theorem accountState_set {state : ZYTDAccountState}
    (h : t.states = s.states.set (zytdStateKey A a) state) (b : AccAddress) :
    accountState A t b = if b = a then state else accountState A s b := by
  unfold accountState
  rw [h, Store.get_set]
  by_cases hb : b = a
  · simp [hb]
  · simp [hb, mt zytdStateKey_inj hb]

/-- The account of `a` was written the ciphertext `ct` and a new limit. -/
structure Stored (A : App) (s t : Accounts) (a : AccAddress) (ct : List UInt8)
    (limit : UInt64) : Prop where
  states : ∃ state : ZYTDAccountState, t.states = s.states.set (zytdStateKey A a) state ∧
    state.encryptedBalance = ct ∧ state.publicCreditLimit = limit
  pubKeys : t.pubKeys = s.pubKeys

theorem storeBalance_ok {height : Int64} {ct : List UInt8} {limit : UInt64}
    (h : storeBalance A height a ct limit s = .ok u t) : Stored A s t a ct limit := by
  simp only [storeBalance, setZYTDAccountState, modifyStore_ok] at h
  subst h
  exact ⟨⟨_, rfl, rfl, rfl⟩, rfl⟩

theorem creditAccount_ok {amount : UInt64} {key : List UInt8} {c₁ c₂ c₃ : String}
    (h : creditAccount T ctx a amount key c₁ c₂ c₃ s = .ok u t) :
    ∃ pubKey encAmount ct, s.pubKeys.get (userPubKeyStoreKey A a) = some pubKey ∧
      T.encryptWithPublicKey pubKey amount.toUInt32 = .ok encAmount ∧
      addToBalance T key (accountState A s a).encryptedBalance encAmount = .ok ct ∧
      Stored A s t a ct (raiseLimit (accountState A s a).publicCreditLimit amount) := by
  simp only [creditAccount, getZYTDAccountState, bind_ok, lookup_ok, mapErr_ok, ofExcept_ok,
    gets_ok] at h
  obtain ⟨pubKey, _, ⟨hkey, rfl⟩, encAmount, _, ⟨henc, rfl⟩, state, _, ⟨rfl, rfl⟩, ct, _,
    ⟨hadd, rfl⟩, hstore⟩ := h
  exact ⟨pubKey, encAmount, ct, hkey, henc, hadd, storeBalance_ok hstore⟩

theorem debitAccount_ok {amount : UInt64} {key : List UInt8}
    (h : debitAccount T ctx a amount key s = .ok u t) :
    (accountState A s a).encryptedBalance ≠ [] ∧
      amount ≤ (accountState A s a).publicCreditLimit ∧
      ∃ encAmount ct, T.encryptWithServerKey key amount.toUInt32 = .ok encAmount ∧
        T.subUint32 key (accountState A s a).encryptedBalance encAmount = .ok ct ∧
        Stored A s t a ct ((accountState A s a).publicCreditLimit - amount) := by
  simp only [debitAccount, getZYTDAccountState, bind_ok, gets_ok, require_ok, mapErr_ok,
    ofExcept_ok, bne_iff_ne, ne_eq, Bool.not_eq_true', decide_eq_false_iff_not,
    UInt64.not_lt] at h
  obtain ⟨state, _, ⟨rfl, rfl⟩, _, _, ⟨hlen, rfl⟩, _, _, ⟨hle, rfl⟩, encAmount, _, ⟨henc, rfl⟩,
    ct, _, ⟨hsub, rfl⟩, hstore⟩ := h
  exact ⟨fun h => hlen (by rw [h]; rfl), hle, encAmount, ct, henc, hsub, storeBalance_ok hstore⟩

theorem confidentialMintZYTD_ok {amount : UInt32} {key : List UInt8}
    (h : confidentialMintZYTD T ctx a amount key s = .ok u t) :
    ∃ c₁ c₂ c₃, creditAccount T ctx a amount.toUInt64 key c₁ c₂ c₃ s = .ok u t := by
  simp only [confidentialMintZYTD, bind_ok, require_ok] at h
  obtain ⟨_, _, ⟨-, rfl⟩, _, _, ⟨-, rfl⟩, hcredit⟩ := h
  exact ⟨_, _, _, hcredit⟩

theorem confidentialTransferZYTD_ok {sender recipient : AccAddress} {amount : UInt64}
    {key : List UInt8}
    (h : confidentialTransferZYTD T ctx sender recipient amount key s = .ok u t) :
    amount ≤ maxUint32 ∧ ∃ v m c₁ c₂ c₃, debitAccount T ctx sender amount key s = .ok v m ∧
      creditAccount T ctx recipient amount key c₁ c₂ c₃ m = .ok u t := by
  simp only [confidentialTransferZYTD, bind_ok, require_ok, Bool.not_eq_true',
    decide_eq_false_iff_not, UInt64.not_lt] at h
  obtain ⟨_, _, ⟨-, rfl⟩, _, _, ⟨hmax, rfl⟩, _, _, ⟨-, rfl⟩, v, m, hdebit, hcredit⟩ := h
  exact ⟨hmax, v, m, _, _, _, hdebit, hcredit⟩

end Inversion

end Zytherion.ConfidentialKeeper
