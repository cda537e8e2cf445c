import Mathlib.Data.UInt
import Zytherion.CreditLimit

/-!
# Whose key opens a confidential balance

A ciphertext carries the client key it was made under and a number. The linked
library adds and subtracts what two ciphertexts carry when both were made under
the client key of the server key in use; otherwise the result carries nothing
that a client key opens. A credit is encrypted for its recipient, the amount a
transfer takes from its sender under the key of the node. A balance therefore
stays readable as long as these keys meet, and the first call in which they do
not meet loses it for good.
-/
namespace Zytherion.BalanceKeys

open GoCall KeyedStore Application ChainState ConfidentialKeeper CreditLimit

/-- The client key and the number of a ciphertext, none where no key opens it. -/
abbrev Content (Key : Type) : Type := Option (Key × UInt32)

section Contents
variable {Key : Type} [DecidableEq Key] {op : UInt32 → UInt32 → UInt32} {key k : Key}
  {c d : Content Key} {m n : UInt32}

/-- An operation that is defined for operands under the key of the server key. -/
def evaluated (op : UInt32 → UInt32 → UInt32) (key : Key) : Content Key → Content Key → Content Key
  | some (k₁, m₁), some (k₂, m₂) =>
      if k₁ = key ∧ k₂ = key then some (key, op m₁ m₂) else none
  | _, _ => none

@[simp] theorem evaluated_none : evaluated op key none d = none := rfl

theorem evaluated_same : evaluated op key (some (key, m)) (some (key, n)) =
    some (key, op m n) := by
  simp [evaluated]

theorem evaluated_foreign (h : ¬ (k = key)) : evaluated op key c (some (k, n)) = none := by
  cases c with
  | none => rfl
  | some c => simp [evaluated, h]

theorem evaluated_foreign_left (h : ¬ (k = key)) : evaluated op key (some (k, m)) c = none := by
  cases c with
  | none => rfl
  | some c => simp [evaluated, h]

end Contents

/-- The linked library with what its ciphertexts carry. Encryption draws on a
seed. -/
structure TfheBridge (Key Seed : Type) [DecidableEq Key] where
  encryptUint32 : Seed → (clientKey : List UInt8) → UInt32 → Except Err (List UInt8)
  encryptWithPublicKey : Seed → (pubKey : List UInt8) → UInt32 → Except Err (List UInt8)
  addUint32 : (serverKey ct₁ ct₂ : List UInt8) → Except Err (List UInt8)
  subUint32 : (serverKey ct₁ ct₂ : List UInt8) → Except Err (List UInt8)
  /-- The client key that the bytes of a client, public or server key belong to. -/
  ofClientKey : List UInt8 → Key
  ofPublicKey : List UInt8 → Key
  ofServerKey : List UInt8 → Key
  carried : List UInt8 → Content Key
  encryptUint32_ok : ∀ seed key m ct, encryptUint32 seed key m = .ok ct →
    ct ≠ [] ∧ carried ct = some (ofClientKey key, m)
  encryptWithPublicKey_ok : ∀ seed key m ct, encryptWithPublicKey seed key m = .ok ct →
    ct ≠ [] ∧ carried ct = some (ofPublicKey key, m)
  addUint32_ok : ∀ key c₁ c₂ ct, addUint32 key c₁ c₂ = .ok ct →
    ct ≠ [] ∧ carried ct = evaluated (· + ·) (ofServerKey key) (carried c₁) (carried c₂)
  subUint32_ok : ∀ key c₁ c₂ ct, subUint32 key c₁ c₂ = .ok ct →
    ct ≠ [] ∧ carried ct = evaluated (· - ·) (ofServerKey key) (carried c₁) (carried c₂)

section Engine

def cachedNodeClientKey (nodeClientKeyCache : List UInt8) : Except Err (List UInt8) :=
  if nodeClientKeyCache.length = 0 then
    .error (.plain "tfhe: node keys not initialised — call EnsureNodeKeys first")
  else .ok nodeClientKeyCache

theorem cachedNodeClientKey_ok {cache clientKey : List UInt8}
    (h : cachedNodeClientKey cache = .ok clientKey) : clientKey = cache := by
  unfold cachedNodeClientKey at h
  split at h
  · cases h
  · exact (Except.ok.inj h).symm

variable {Key Seed : Type} [DecidableEq Key] (B : TfheBridge Key Seed)

/-- The server key is not read: the amount is encrypted under the node's client
key. -/
def encryptWithServerKey (nodeClientKeyCache : List UInt8) (seed : Seed) (_serverKey : List UInt8)
    (plaintext : UInt32) : Except Err (List UInt8) := do
  let nodeClientKey ← (cachedNodeClientKey nodeClientKeyCache).mapError
    (.wrap "tfhe: EncryptWithServerKey")
  B.encryptUint32 seed nodeClientKey plaintext

/-- The operations as the keeper of a node calls them. -/
def TfheBridge.ops (nodeClientKeyCache : List UInt8) (seed : Seed) : TfheOps where
  encryptWithPublicKey := B.encryptWithPublicKey seed
  encryptWithServerKey := encryptWithServerKey B nodeClientKeyCache seed
  addUint32 := B.addUint32
  subUint32 := B.subUint32

def TfheBridge.decrypt (clientKey : Key) (ct : List UInt8) : Option UInt32 :=
  (B.carried ct).bind fun content => if content.1 = clientKey then some content.2 else none

variable {B}

theorem decrypt_eq_some {clientKey : Key} {ct : List UInt8} {m : UInt32} :
    B.decrypt clientKey ct = some m ↔ B.carried ct = some (clientKey, m) := by
  unfold TfheBridge.decrypt
  cases B.carried ct with
  | none => simp
  | some content =>
      obtain ⟨k, n⟩ := content
      by_cases hk : k = clientKey <;> simp [hk]

theorem encryptWithServerKey_ok {cache serverKey ct : List UInt8} {seed : Seed} {m : UInt32}
    (h : encryptWithServerKey B cache seed serverKey m = .ok ct) :
    ct ≠ [] ∧ B.carried ct = some (B.ofClientKey cache, m) := by
  unfold encryptWithServerKey at h
  obtain ⟨clientKey, hkey, h⟩ := (except_bind_ok _ _ _).mp h
  rw [cachedNodeClientKey_ok (mapError_ok.mp hkey)] at h
  exact B.encryptUint32_ok _ _ _ _ h

end Engine

section Runs
variable {A : App} {Key Seed : Type} [DecidableEq Key] (B : TfheBridge Key Seed)
  (cache : List UInt8) (own : AccAddress → Key)

/-- A call with the seed it draws on. -/
abbrev Drawn (A : App) (Seed : Type) : Type := Seed × ConfInput A

def deliver (s : Accounts) (i : Drawn A Seed) : Accounts := advance (B.ops cache i.1) s i.2

def Succeeds (s : Accounts) (i : Drawn A Seed) : Prop := Accepted (B.ops cache i.1) s i.2

/-- The key a user registers belongs to the user's own client key. -/
def RegistersOwn (i : Drawn A Seed) : Prop :=
  match i.2 with
  | .register addr pubKey => B.ofPublicKey pubKey = own addr
  | _ => True

instance (i : Drawn A Seed) : Decidable (RegistersOwn B own i) :=
  match i with
  | (_, .register addr pubKey) => inferInstanceAs (Decidable (B.ofPublicKey pubKey = own addr))
  | (_, .mint _ _ _ _) => .isTrue trivial
  | (_, .transfer _ _ _ _ _) => .isTrue trivial

variable (A) in
def balance (s : Accounts) (a : AccAddress) : List UInt8 := (accountState A s a).encryptedBalance

/-- What a call credits to an account, by minting or by a transfer. -/
def credited (a : AccAddress) (i : Drawn A Seed) : UInt32 :=
  match i.2 with
  | .register _ _ => 0
  | .mint _ recipient amount _ => if a = recipient then amount else 0
  | .transfer _ _ recipient amount _ => if a = recipient then amount.toUInt32 else 0

def debited (a : AccAddress) (i : Drawn A Seed) : UInt32 :=
  match i.2 with
  | .transfer _ sender _ amount _ => if a = sender then amount.toUInt32 else 0
  | _ => 0

/-- The amounts minted and received less the amounts sent. -/
def net (inputs : List (Drawn A Seed)) (a : AccAddress) : UInt32 :=
  (inputs.map (credited a)).sum - (inputs.map (debited a)).sum

variable (A) in
/-- Every balance decrypts under its user's key to the number given. -/
def Readable (n : AccAddress → UInt32) (s : Accounts) : Prop :=
  ∀ a, if balance A s a = [] then n a = 0 else B.decrypt (own a) (balance A s a) = some (n a)

/-- The keys of a call meet. A credit to an empty account meets none; the amount a
transfer takes was encrypted under the key of the node. -/
def KeysMeet (s : Accounts) (i : Drawn A Seed) : Prop :=
  match i.2 with
  | .register _ _ => True
  | .mint _ recipient _ serverKey =>
      balance A s recipient = [] ∨ B.ofServerKey serverKey = own recipient
  | .transfer _ sender recipient _ serverKey =>
      own sender = B.ofClientKey cache ∧ B.ofServerKey serverKey = own sender ∧
        (balance A s recipient = [] ∨ B.ofServerKey serverKey = own recipient)

instance (s : Accounts) (i : Drawn A Seed) : Decidable (KeysMeet B cache own s i) :=
  match i with
  | (_, .register _ _) => .isTrue trivial
  | (_, .mint _ recipient _ serverKey) =>
      inferInstanceAs (Decidable (balance A s recipient = [] ∨
        B.ofServerKey serverKey = own recipient))
  | (_, .transfer _ sender recipient _ serverKey) =>
      inferInstanceAs (Decidable (own sender = B.ofClientKey cache ∧
        B.ofServerKey serverKey = own sender ∧
        (balance A s recipient = [] ∨ B.ofServerKey serverKey = own recipient)))

variable (A) in
/-- Every registered key is its user's own. -/
def Owned (s : Accounts) : Prop :=
  ∀ a pubKey, s.pubKeys.get (userPubKeyStoreKey A a) = some pubKey → B.ofPublicKey pubKey = own a

variable (A) in
/-- Some balance is opened by no key. -/
def Lost (s : Accounts) : Prop := ∃ a, balance A s a ≠ [] ∧ B.carried (balance A s a) = none

end Runs

section Writes
variable {A : App} {Key Seed : Type} [DecidableEq Key] {B : TfheBridge Key Seed}
  {cache : List UInt8} {own : AccAddress → Key} {seed : Seed} {ctx : Ctx A} {s t : Accounts}
  {a : AccAddress} {u : Unit} {n : AccAddress → UInt32} {amount : UInt64} {key : List UInt8}

/-- One account was written a ciphertext with this content, the others and the
registered keys were kept. -/
structure Rewritten (A : App) (B : TfheBridge Key Seed) (s t : Accounts) (a : AccAddress)
    (content : Content Key) : Prop where
  nonempty : balance A t a ≠ []
  carried : B.carried (balance A t a) = content
  others : ∀ b, b ≠ a → balance A t b = balance A s b
  pubKeys : t.pubKeys = s.pubKeys

theorem stored_rewritten {ct : List UInt8} {limit : UInt64} (hct : ct ≠ [])
    (h : Stored A s t a ct limit) : Rewritten A B s t a (B.carried ct) := by
  obtain ⟨⟨state, hstates, rfl, -⟩, hkeys⟩ := h
  have hself : balance A t a = state.encryptedBalance := by
    rw [balance, accountState_set hstates, if_pos rfl]
  refine ⟨by rwa [hself], by rw [hself], ?_, hkeys⟩
  intro b hb
  rw [balance, accountState_set hstates, if_neg hb, balance]

theorem creditAccount_rewritten {c₁ c₂ c₃ : String} (howned : Owned A B own s)
    (h : creditAccount (B.ops cache seed) ctx a amount key c₁ c₂ c₃ s = .ok u t) :
    Rewritten A B s t a (if balance A s a = [] then some (own a, amount.toUInt32)
      else evaluated (· + ·) (B.ofServerKey key) (B.carried (balance A s a))
        (some (own a, amount.toUInt32))) := by
  obtain ⟨pubKey, encAmount, ct, hkey, henc, hadd, hstored⟩ := creditAccount_ok h
  obtain ⟨hne, hcarried⟩ := B.encryptWithPublicKey_ok _ _ _ _ henc
  rw [howned a pubKey hkey] at hcarried
  by_cases hempty : balance A s a = []
  · have hct : encAmount = ct := by
      rw [balance] at hempty
      simpa only [addToBalance, hempty, List.length_nil, if_true, Except.ok.injEq] using hadd
    subst hct
    rw [if_pos hempty, ← hcarried]
    exact stored_rewritten hne hstored
  · have hlen : (accountState A s a).encryptedBalance.length ≠ 0 := fun h =>
      hempty (List.eq_nil_of_length_eq_zero h)
    simp only [addToBalance, hlen, if_false] at hadd
    obtain ⟨hct, hsum⟩ := B.addUint32_ok _ _ _ _ hadd
    rw [if_neg hempty, ← hcarried, balance, ← hsum]
    exact stored_rewritten hct hstored

theorem debitAccount_rewritten (h : debitAccount (B.ops cache seed) ctx a amount key s = .ok u t) :
    balance A s a ≠ [] ∧ Rewritten A B s t a (evaluated (· - ·) (B.ofServerKey key)
      (B.carried (balance A s a)) (some (B.ofClientKey cache, amount.toUInt32))) := by
  obtain ⟨hne, -, encAmount, ct, henc, hsub, hstored⟩ := debitAccount_ok h
  have hserver : encryptWithServerKey B cache seed key amount.toUInt32 = .ok encAmount := henc
  obtain ⟨-, hcarried⟩ := encryptWithServerKey_ok hserver
  obtain ⟨hct, hdiff⟩ := B.subUint32_ok _ _ _ _ hsub
  refine ⟨hne, ?_⟩
  rw [← hcarried, balance, ← hdiff]
  exact stored_rewritten hct hstored

theorem register_owned {pubKey : List UInt8} (hs : Owned A B own s)
    (hkey : B.ofPublicKey pubKey = own a)
    (h : setUserTFHEPublicKey A a pubKey s = .ok u t) : Owned A B own t := by
  simp only [setUserTFHEPublicKey, bind_ok, require_ok, modifyStore_ok] at h
  obtain ⟨_, _, ⟨-, rfl⟩, _, _, ⟨-, rfl⟩, rfl⟩ := h
  intro b other hget
  rw [Store.get_set] at hget
  by_cases hb : userPubKeyStoreKey A b = userPubKeyStoreKey A a
  · rw [if_pos hb, Option.some.injEq] at hget
    rw [← hget, hkey, userPubKeyStoreKey_inj hb]
  · rw [if_neg hb] at hget
    exact hs b other hget

theorem Rewritten.owned {content : Content Key} (h : Rewritten A B s t a content)
    (hs : Owned A B own s) : Owned A B own t := by
  intro b pubKey hget
  rw [h.pubKeys] at hget
  exact hs b pubKey hget

end Writes

section Steps
variable {A : App} {Key Seed : Type} [DecidableEq Key] {B : TfheBridge Key Seed}
  {cache : List UInt8} {own : AccAddress → Key} {s t : Accounts} {a : AccAddress}
  {n : AccAddress → UInt32} {amount : UInt32} {server node : Key} {content : Content Key}

theorem Readable.carried (hs : Readable A B own n s) (h : balance A s a ≠ []) :
    B.carried (balance A s a) = some (own a, n a) := by
  have ha := hs a
  rw [if_neg h] at ha
  exact decrypt_eq_some.mp ha

theorem Readable.not_lost (hs : Readable A B own n s) : ¬ Lost A B s := by
  rintro ⟨a, hne, hnone⟩
  rw [hs.carried hne] at hnone
  exact absurd hnone (by simp)

/-- The account that was written reads as written, the others as before. -/
theorem Rewritten.readable {m : UInt32} {n' : AccAddress → UInt32}
    (h : Rewritten A B s t a (some (own a, m))) (hs : Readable A B own n s) (ha : n' a = m)
    (hothers : ∀ b, b ≠ a → n' b = n b) : Readable A B own n' t := by
  intro b
  by_cases hb : b = a
  · subst hb
    rw [if_neg h.nonempty, ha]
    exact decrypt_eq_some.mpr h.carried
  · rw [h.others b hb, hothers b hb]
    exact hs b

theorem Rewritten.lost (h : Rewritten A B s t a none) : Lost A B t := ⟨a, h.nonempty, h.carried⟩

/-- A balance no key opens is not repaired by writing another account, nor by an
operation on it. -/
theorem Lost.rewritten (hs : Lost A B s) (h : Rewritten A B s t a content)
    (habsorb : balance A s a ≠ [] → B.carried (balance A s a) = none → content = none) :
    Lost A B t := by
  obtain ⟨b, hne, hnone⟩ := hs
  by_cases hb : b = a
  · subst hb
    have hcontent := habsorb hne hnone
    exact ⟨b, h.nonempty, by rw [h.carried, hcontent]⟩
  · exact ⟨b, by rwa [h.others b hb], by rwa [h.others b hb]⟩

section Credit
variable (h : Rewritten A B s t a (if balance A s a = [] then some (own a, amount)
  else evaluated (· + ·) server (B.carried (balance A s a)) (some (own a, amount))))
include h

theorem Lost.credit (hs : Lost A B s) : Lost A B t := by
  apply hs.rewritten h
  intro hne hnone
  rw [if_neg hne, hnone, evaluated_none]

theorem Readable.credit (hs : Readable A B own n s)
    (hmeet : balance A s a = [] ∨ server = own a) :
    Readable A B own (fun b => n b + if b = a then amount else 0) t := by
  by_cases hempty : balance A s a = []
  · have hzero := hs a
    rw [if_pos hempty] at hzero h
    exact h.readable hs (by simp [hzero]) (fun b hb => by simp [hb])
  · have hserver := hmeet.resolve_left hempty
    rw [if_neg hempty, hs.carried hempty, hserver, evaluated_same] at h
    exact h.readable hs (by simp) (fun b hb => by simp [hb])

theorem lost_of_credit (hmeet : ¬ (balance A s a = [] ∨ server = own a)) : Lost A B t := by
  obtain ⟨hne, hserver⟩ := not_or.mp hmeet
  rw [if_neg hne, evaluated_foreign (Ne.symm hserver)] at h
  exact h.lost

end Credit

section Debit
variable (h : Rewritten A B s t a (evaluated (· - ·) server (B.carried (balance A s a))
  (some (node, amount))))
include h

theorem Lost.debit (hs : Lost A B s) : Lost A B t := by
  apply hs.rewritten h
  intro _ hnone
  rw [hnone, evaluated_none]

theorem Readable.debit (hs : Readable A B own n s) (hne : balance A s a ≠ [])
    (hnode : own a = node) (hserver : server = own a) :
    Readable A B own (fun b => n b - if b = a then amount else 0) t := by
  rw [hs.carried hne, ← hnode, hserver, evaluated_same] at h
  exact h.readable hs (by simp) (fun b hb => by simp [hb])

theorem lost_of_debit (hs : Readable A B own n s) (hne : balance A s a ≠ [])
    (hmeet : ¬ (own a = node ∧ server = own a)) : Lost A B t := by
  by_cases hserver : server = own a
  · have hnode : ¬ node = server := fun h => hmeet ⟨by rw [h, hserver], hserver⟩
    rw [evaluated_foreign hnode] at h
    exact h.lost
  · rw [hs.carried hne, evaluated_foreign_left (Ne.symm hserver)] at h
    exact h.lost

end Debit

end Steps

section Calls
variable {A : App} {Key Seed : Type} [DecidableEq Key] {B : TfheBridge Key Seed}
  {cache : List UInt8} {own : AccAddress → Key} {seed : Seed} {ctx : Ctx A} {s t : Accounts}
  {u : Unit} {n : AccAddress → UInt32} {key : List UInt8}

theorem mint_rewritten {recipient : AccAddress} {amount : UInt32} (howned : Owned A B own s)
    (h : confidentialMintZYTD (B.ops cache seed) ctx recipient amount key s = .ok u t) :
    Rewritten A B s t recipient (if balance A s recipient = [] then some (own recipient, amount)
      else evaluated (· + ·) (B.ofServerKey key) (B.carried (balance A s recipient))
        (some (own recipient, amount))) := by
  obtain ⟨_, _, _, hcredit⟩ := confidentialMintZYTD_ok h
  simpa using creditAccount_rewritten howned hcredit

theorem transfer_rewritten {sender recipient : AccAddress} {amount : UInt64}
    (howned : Owned A B own s)
    (h : confidentialTransferZYTD (B.ops cache seed) ctx sender recipient amount key s = .ok u t) :
    balance A s sender ≠ [] ∧ ∃ m,
      Rewritten A B s m sender (evaluated (· - ·) (B.ofServerKey key)
        (B.carried (balance A s sender)) (some (B.ofClientKey cache, amount.toUInt32))) ∧
      Rewritten A B m t recipient
        (if balance A m recipient = [] then some (own recipient, amount.toUInt32)
        else evaluated (· + ·) (B.ofServerKey key) (B.carried (balance A m recipient))
          (some (own recipient, amount.toUInt32))) := by
  obtain ⟨-, _, m, _, _, _, hdebit, hcredit⟩ := confidentialTransferZYTD_ok h
  obtain ⟨hne, hrewritten⟩ := debitAccount_rewritten hdebit
  exact ⟨hne, m, hrewritten, creditAccount_rewritten (hrewritten.owned howned) hcredit⟩

theorem register_balance {addr : AccAddress} {pubKey : List UInt8}
    (h : setUserTFHEPublicKey A addr pubKey s = .ok u t) : balance A t = balance A s := by
  funext a
  simp only [balance, accountState, register_states h]

variable {i : Drawn A Seed}

theorem deliver_owned (hs : Owned A B own s) (hown : RegistersOwn B own i)
    (hi : Succeeds B cache s i) : Owned A B own (deliver B cache s i) := by
  obtain ⟨seed, i⟩ := i
  obtain ⟨t, ht⟩ := hi
  rw [deliver, advance, commit_ok ht]
  cases i with
  | register addr pubKey => exact register_owned hs hown ht
  | mint ctx recipient amount key => exact (mint_rewritten hs ht).owned hs
  | transfer ctx sender recipient amount key =>
      obtain ⟨-, m, hdebit, hcredit⟩ := transfer_rewritten hs ht
      exact hcredit.owned (hdebit.owned hs)

theorem deliver_lost (howned : Owned A B own s) (hs : Lost A B s) (hi : Succeeds B cache s i) :
    Lost A B (deliver B cache s i) := by
  obtain ⟨seed, i⟩ := i
  obtain ⟨t, ht⟩ := hi
  rw [deliver, advance, commit_ok ht]
  cases i with
  | register addr pubKey =>
      unfold Lost
      rw [register_balance ht]
      exact hs
  | mint ctx recipient amount key => exact hs.credit (mint_rewritten howned ht)
  | transfer ctx sender recipient amount key =>
      obtain ⟨-, m, hdebit, hcredit⟩ := transfer_rewritten howned ht
      exact (hs.debit hdebit).credit hcredit

/-- Where the keys meet a call books its amounts, where they do not it loses a
balance. -/
theorem deliver_readable (howned : Owned A B own s) (hs : Readable A B own n s)
    (hi : Succeeds B cache s i) :
    (KeysMeet B cache own s i →
      Readable A B own (fun a => n a + credited a i - debited a i) (deliver B cache s i)) ∧
    (¬ KeysMeet B cache own s i → Lost A B (deliver B cache s i)) := by
  obtain ⟨seed, i⟩ := i
  obtain ⟨t, ht⟩ := hi
  rw [deliver, advance, commit_ok ht]
  cases i with
  | register addr pubKey =>
      refine ⟨fun _ a => ?_, fun h => absurd trivial h⟩
      rw [register_balance ht]
      simpa [credited, debited] using hs a
  | mint ctx recipient amount key =>
      have hcredit := mint_rewritten howned ht
      refine ⟨fun h => ?_, lost_of_credit hcredit⟩
      simpa [credited, debited] using hs.credit hcredit h
  | transfer ctx sender recipient amount key =>
      obtain ⟨hne, m, hdebit, hcredit⟩ := transfer_rewritten howned ht
      by_cases hsender : own sender = B.ofClientKey cache ∧ B.ofServerKey key = own sender
      · have hm := hs.debit hdebit hne hsender.1 hsender.2
        -- a transfer to oneself finds the balance it has just reduced
        have hrecipient : (balance A m recipient = [] ∨ B.ofServerKey key = own recipient) ↔
            (balance A s recipient = [] ∨ B.ofServerKey key = own recipient) := by
          by_cases hself : recipient = sender
          · simp [hself, hsender.2]
          · rw [hdebit.others recipient hself]
        refine ⟨fun h => ?_, fun h => ?_⟩
        · have hsum : (fun a => n a + credited a (seed, .transfer ctx sender recipient amount key) -
              debited a (seed, .transfer ctx sender recipient amount key)) =
              fun a => n a - (if a = sender then amount.toUInt32 else 0) +
                if a = recipient then amount.toUInt32 else 0 := by
            funext a
            simp only [credited, debited]
            grind
          rw [hsum]
          exact hm.credit hcredit (hrecipient.mpr h.2.2)
        · apply lost_of_credit hcredit
          rw [hrecipient]
          exact fun hr => h ⟨hsender.1, hsender.2, hr⟩
      · refine ⟨fun h => absurd ⟨h.1, h.2.1⟩ hsender, fun _ => ?_⟩
        exact (lost_of_debit hdebit hs hne hsender).credit hcredit

end Calls

section Histories
variable {A : App} {Key Seed : Type} [DecidableEq Key] {B : TfheBridge Key Seed}
  {cache : List UInt8} {own : AccAddress → Key}

theorem run_lost (inputs : List (Drawn A Seed)) {s : Accounts} (howned : Owned A B own s)
    (hs : Lost A B s) (hinputs : Along (deliver B cache) (Succeeds B cache) s inputs)
    (hown : ∀ i ∈ inputs, RegistersOwn B own i) : Lost A B (run (deliver B cache) s inputs) := by
  induction inputs generalizing s with
  | nil => exact hs
  | cons i inputs ih =>
      have howned' := deliver_owned howned (hown i (by simp)) hinputs.1
      exact ih howned' (deliver_lost howned hs hinputs.1) hinputs.2
        fun j hj => hown j (by simp [hj])

/-- Along a run from balances that read as `n`, either the keys meet and the
amounts of the run are added, or a balance is lost. -/
theorem run_readable (inputs : List (Drawn A Seed)) {s : Accounts} {n : AccAddress → UInt32}
    (howned : Owned A B own s) (hs : Readable A B own n s)
    (hinputs : Along (deliver B cache) (Succeeds B cache) s inputs)
    (hown : ∀ i ∈ inputs, RegistersOwn B own i) :
    (Along (deliver B cache) (KeysMeet B cache own) s inputs →
      Readable A B own (fun a => n a + net inputs a) (run (deliver B cache) s inputs)) ∧
    (¬ Along (deliver B cache) (KeysMeet B cache own) s inputs →
      Lost A B (run (deliver B cache) s inputs)) := by
  induction inputs generalizing s n with
  | nil =>
      refine ⟨fun _ => ?_, fun h => absurd trivial h⟩
      simpa [net] using hs
  | cons i inputs ih =>
      have howned' := deliver_owned howned (hown i (by simp)) hinputs.1
      have hrest : ∀ j ∈ inputs, RegistersOwn B own j := fun j hj => hown j (by simp [hj])
      obtain ⟨hmeet, hmiss⟩ := deliver_readable howned hs hinputs.1
      by_cases hi : KeysMeet B cache own s i
      · obtain ⟨hread, hlost⟩ := ih howned' (hmeet hi) hinputs.2 hrest
        have hsum : (fun a => n a + net (i :: inputs) a) =
            fun a => n a + credited a i - debited a i + net inputs a := by
          funext a
          simp only [net, List.map_cons, List.sum_cons]
          grind
        rw [hsum]
        exact ⟨fun h => hread h.2, fun h => hlost fun hr => h ⟨hi, hr⟩⟩
      · refine ⟨fun h => absurd h.1 hi, fun _ => ?_⟩
        exact run_lost inputs howned' (hmiss hi) hinputs.2 hrest

theorem noAccounts_owned : Owned A B own noAccounts := by
  intro a pubKey h
  exact absurd h (by simp [noAccounts])

theorem noAccounts_readable : Readable A B own (fun _ => 0) noAccounts := fun _ => rfl

/-- After calls that succeeded among users with keys of their own, every balance
decrypts under its user's client key to what was minted and received less what
was sent, exactly when in each of these calls the keys met. -/
theorem balances_readable_iff (B : TfheBridge Key Seed) (cache : List UInt8)
    (own : AccAddress → Key) (inputs : List (Drawn A Seed))
    (hinputs : Along (deliver B cache) (Succeeds B cache) noAccounts inputs)
    (hown : ∀ i ∈ inputs, RegistersOwn B own i) :
    Readable A B own (net inputs) (run (deliver B cache) noAccounts inputs) ↔
      Along (deliver B cache) (KeysMeet B cache own) noAccounts inputs := by
  obtain ⟨hread, hlost⟩ := run_readable inputs noAccounts_owned noAccounts_readable hinputs hown
  constructor
  · intro h
    by_contra hmiss
    exact h.not_lost (hlost hmiss)
  · intro h
    simpa using hread h

end Histories

section Keys
open Devnet

/-- A ciphertext that is the first byte of its key and the number in four bytes;
one byte alone is opened by no key. -/
def sealed : Content UInt8 → List UInt8
  | some (key, m) => key :: plainBytes m
  | none => [0]

def opened : List UInt8 → Content UInt8
  | key :: b :: bytes => some (key, plainValue (b :: bytes))
  | _ => none

theorem opened_sealed (content : Content UInt8) : opened (sealed content) = content := by
  cases content with
  | none => rfl
  | some content =>
      obtain ⟨key, m⟩ := content
      have h := plainValue_plainBytes m
      simp only [sealed, plainBytes, List.range, List.range.loop, List.map_cons, List.map_nil,
        opened] at h ⊢
      rw [h]

theorem sealed_ne_nil (content : Content UInt8) : sealed content ≠ [] := by
  rcases content with _ | ⟨key, m⟩ <;> simp [sealed]

def sealedBridge : TfheBridge UInt8 Unit where
  encryptUint32 _ key m := .ok (sealed (some (key.headD 0, m)))
  encryptWithPublicKey _ key m := .ok (sealed (some (key.headD 0, m)))
  addUint32 key c₁ c₂ := .ok (sealed (evaluated (· + ·) (key.headD 0) (opened c₁) (opened c₂)))
  subUint32 key c₁ c₂ := .ok (sealed (evaluated (· - ·) (key.headD 0) (opened c₁) (opened c₂)))
  ofClientKey key := key.headD 0
  ofPublicKey key := key.headD 0
  ofServerKey key := key.headD 0
  carried := opened
  encryptUint32_ok := by
    rintro _ key m _ ⟨⟩
    exact ⟨sealed_ne_nil _, opened_sealed _⟩
  encryptWithPublicKey_ok := by
    rintro _ key m _ ⟨⟩
    exact ⟨sealed_ne_nil _, opened_sealed _⟩
  addUint32_ok := by
    rintro key c₁ c₂ _ ⟨⟩
    exact ⟨sealed_ne_nil _, opened_sealed _⟩
  subUint32_ok := by
    rintro key c₁ c₂ _ ⟨⟩
    exact ⟨sealed_ne_nil _, opened_sealed _⟩

/-- Every user has the client key one. -/
def keyOne (_ : AccAddress) : UInt8 := 1

/-- `alice` is credited with one hundred, by a node with the client key `node`. -/
def aliceCredited (node : UInt8) : List (Drawn devnet Unit) :=
  [((), .register alice tfheKey), ((), .register bob tfheKey), ((), .mint block alice 100 [node])]

def creditedAgain (node : UInt8) : Drawn devnet Unit := ((), .mint block alice 1 [node])

def sendsForty (node : UInt8) : Drawn devnet Unit := ((), .transfer block alice bob 40 [node])

/-- Every call of a run returns. -/
def AllReturn (node : UInt8) (inputs : List (Drawn devnet Unit)) : Prop :=
  Along (deliver sealedBridge [node])
    (fun s i => (i.2.call (sealedBridge.ops [node] i.1) s).returned = some ()) noAccounts inputs

instance (node : UInt8) (inputs : List (Drawn devnet Unit)) : Decidable (AllReturn node inputs) :=
  inferInstanceAs (Decidable (Along _ _ _ _))

theorem AllReturn.succeeds {node : UInt8} {inputs : List (Drawn devnet Unit)}
    (h : AllReturn node inputs) :
    Along (deliver sealedBridge [node]) (Succeeds sealedBridge [node]) noAccounts inputs :=
  h.imp fun _ _ => returned_iff.mp

/-- Two calls that meet a balance under the key of the node. -/
def nextCalls (node : UInt8) : List (Drawn devnet Unit) := [creditedAgain node, sendsForty node]

theorem nodeTwo_facts : ∀ next ∈ nextCalls 2,
    AllReturn 2 (aliceCredited 2 ++ [next]) ∧
    (∀ i ∈ aliceCredited 2 ++ [next], RegistersOwn sealedBridge keyOne i) ∧
    balance devnet (run (deliver sealedBridge [2]) noAccounts (aliceCredited 2 ++ [next])) alice =
      [0] := by
  decide +kernel

/-- `alice` is credited and then `next` is called on a node whose client key is two,
with users whose client key is one: every call returns, and yet some balance is
not readable. -/
def LosesBalance (next : Drawn devnet Unit) : Prop :=
  Along (deliver sealedBridge [2]) (Succeeds sealedBridge [2]) noAccounts
    (aliceCredited 2 ++ [next]) ∧
  (∀ i ∈ aliceCredited 2 ++ [next], RegistersOwn sealedBridge keyOne i) ∧
  ¬ Readable devnet sealedBridge keyOne (net (aliceCredited 2 ++ [next]))
    (run (deliver sealedBridge [2]) noAccounts (aliceCredited 2 ++ [next]))

theorem losesBalance_of_mem {next : Drawn devnet Unit} (hnext : next ∈ nextCalls 2) :
    LosesBalance next := by
  obtain ⟨hreturn, hown, hbalance⟩ := nodeTwo_facts next hnext
  refine ⟨hreturn.succeeds, hown, fun hread => ?_⟩
  have halice := hread alice
  rw [hbalance] at halice
  simp [TfheBridge.decrypt, sealedBridge, opened] at halice

/-- The second mint to `alice` leaves a balance that no key opens, and so does the
first transfer. -/
theorem second_call_loses : LosesBalance (creditedAgain 2) ∧ LosesBalance (sendsForty 2) :=
  ⟨losesBalance_of_mem (by simp [nextCalls]), losesBalance_of_mem (by simp [nextCalls])⟩

theorem nodeOne_facts : AllReturn 1 (aliceCredited 1 ++ nextCalls 1) ∧
    (∀ i ∈ aliceCredited 1 ++ nextCalls 1, RegistersOwn sealedBridge keyOne i) ∧
    Along (deliver sealedBridge [1]) (KeysMeet sealedBridge [1] keyOne) noAccounts
      (aliceCredited 1 ++ nextCalls 1) := by
  decide +kernel

/-- The same calls where the users share the key of the node. -/
theorem shared_key_readable : Readable devnet sealedBridge keyOne
    (net (aliceCredited 1 ++ nextCalls 1))
    (run (deliver sealedBridge [1]) noAccounts (aliceCredited 1 ++ nextCalls 1)) := by
  obtain ⟨hreturn, hown, hmeet⟩ := nodeOne_facts
  rw [balances_readable_iff sealedBridge [1] keyOne _ hreturn.succeeds hown]
  exact hmeet

end Keys

end Zytherion.BalanceKeys
