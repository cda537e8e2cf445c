import Zytherion.ConfidentialKeeper
import Zytherion.Devnet

/-!
# The public credit limit and the encrypted balance

The limit counts in 64 bits what the ciphertext counts modulo `2 ^ 32`. As long
as no credit takes a limit to `2 ^ 32` the two are the same number, and a
transfer within the limit is within the balance. The first credit that goes
beyond leaves a limit its balance cannot reach.
-/
namespace Zytherion.CreditLimit

open GoCall KeyedStore Application ChainState ConfidentialKeeper

inductive ConfInput (A : App) where
  | register (addr : AccAddress) (pubKey : List UInt8)
  | mint (ctx : Ctx A) (recipient : AccAddress) (amount : UInt32) (serverKey : List UInt8)
  | transfer (ctx : Ctx A) (sender recipient : AccAddress) (amount : UInt64)
      (serverKey : List UInt8)

section Calls
variable {A : App} (T : TfheOps)

def ConfInput.call : ConfInput A → ConfExec Unit
  | register addr pubKey => setUserTFHEPublicKey A addr pubKey
  | mint ctx recipient amount serverKey => confidentialMintZYTD T ctx recipient amount serverKey
  | transfer ctx sender recipient amount serverKey =>
      confidentialTransferZYTD T ctx sender recipient amount serverKey

def advance (s : Accounts) (i : ConfInput A) : Accounts := commit (i.call T) s

def Accepted (s : Accounts) (i : ConfInput A) : Prop := ∃ t, i.call T s = .ok () t

end Calls

section Runs
variable {A : App} (T : Tfhe)

variable (A)

def limitOf (s : Accounts) (a : AccAddress) : UInt64 := (accountState A s a).publicCreditLimit

/-- What the balance decrypts to, zero where there is none. -/
def balanceOf (s : Accounts) (a : AccAddress) : UInt32 :=
  if (accountState A s a).encryptedBalance = [] then 0
  else T.decrypt (accountState A s a).encryptedBalance

/-- The invariant documented with the account state. -/
def Covered (s : Accounts) : Prop := ∀ a, (limitOf A s a).toNat ≤ (balanceOf A T s a).toNat

/-- Limit and balance are one number. -/
def Exact (s : Accounts) : Prop := ∀ a, (limitOf A s a).toNat = (balanceOf A T s a).toNat

variable {A}

/-- The subtraction of a transfer does not wrap. -/
def NoUnderflow (s : Accounts) : ConfInput A → Prop
  | .transfer _ sender _ amount _ => amount.toNat ≤ (balanceOf A T s sender).toNat
  | _ => True

/-- The credit leaves the recipient's limit below `2 ^ 32`. A transfer to oneself
credits what it debits. -/
def Fits (s : Accounts) : ConfInput A → Prop
  | .register _ _ => True
  | .mint _ recipient amount _ => (limitOf A s recipient).toNat + amount.toNat < 2 ^ 32
  | .transfer _ sender recipient amount _ =>
      sender = recipient ∨ (limitOf A s recipient).toNat + amount.toNat < 2 ^ 32

instance (s : Accounts) (i : ConfInput A) : Decidable (Fits s i) := by
  cases i <;> unfold Fits <;> infer_instance

end Runs

section Writes
variable {A : App} {T : Tfhe} {ctx : Ctx A} {s t : Accounts} {a : AccAddress} {u : Unit}

/-- One account was given a limit and a balance, the others kept theirs. -/
structure Posted (A : App) (T : Tfhe) (s t : Accounts) (a : AccAddress) (limit : UInt64)
    (balance : UInt32) : Prop where
  limit : limitOf A t a = limit
  balance : balanceOf A T t a = balance
  others : ∀ b, b ≠ a → limitOf A t b = limitOf A s b ∧ balanceOf A T t b = balanceOf A T s b

/-- One account was written a state with this limit and a ciphertext of this
balance. -/
def Written (A : App) (T : Tfhe) (s t : Accounts) (a : AccAddress) (limit : UInt64)
    (balance : UInt32) : Prop :=
  ∃ state : ZYTDAccountState, t.states = s.states.set (zytdStateKey A a) state ∧
    state.publicCreditLimit = limit ∧ state.encryptedBalance ≠ [] ∧
    T.decrypt state.encryptedBalance = balance

theorem Written.accountState_ne {limit : UInt64} {balance : UInt32} {b : AccAddress}
    (h : Written A T s t a limit balance) (hb : b ≠ a) :
    accountState A t b = accountState A s b := by
  obtain ⟨state, hstates, -⟩ := h
  rw [accountState_set hstates, if_neg hb]

theorem Written.posted {limit : UInt64} {balance : UInt32} (h : Written A T s t a limit balance) :
    Posted A T s t a limit balance := by
  have hother := fun b (hb : b ≠ a) => h.accountState_ne hb
  obtain ⟨state, hstates, hlimit, hne, hbalance⟩ := h
  have hself : accountState A t a = state := by rw [accountState_set hstates, if_pos rfl]
  refine ⟨?_, ?_, ?_⟩
  · rw [limitOf, hself, hlimit]
  · rw [balanceOf, hself, if_neg hne, hbalance]
  · intro b hb
    simp only [limitOf, balanceOf, hother b hb, and_self]

theorem stored_written {ct : List UInt8} {limit : UInt64} (hct : ct ≠ [])
    (h : Stored A s t a ct limit) : Written A T s t a limit (T.decrypt ct) := by
  obtain ⟨⟨state, hstates, rfl, hlimit⟩, -⟩ := h
  exact ⟨state, hstates, hlimit, hct, rfl⟩

theorem creditAccount_written {amount : UInt64} {key : List UInt8} {c₁ c₂ c₃ : String}
    (h : creditAccount T ctx a amount key c₁ c₂ c₃ s = .ok u t) :
    Written A T s t a (raiseLimit (limitOf A s a) amount)
      (balanceOf A T s a + amount.toUInt32) := by
  obtain ⟨pubKey, encAmount, ct, -, henc, hadd, hstored⟩ := creditAccount_ok h
  obtain ⟨hne, hdec⟩ := T.encryptWithPublicKey_ok _ _ _ henc
  by_cases hempty : (accountState A s a).encryptedBalance = []
  · simp only [addToBalance, hempty, List.length_nil, if_true, Except.ok.injEq] at hadd
    subst hadd
    have hwritten := stored_written (T := T) hne hstored
    simpa [balanceOf, hempty, hdec, limitOf] using hwritten
  · have hlen : (accountState A s a).encryptedBalance.length ≠ 0 := fun h =>
      hempty (List.eq_nil_of_length_eq_zero h)
    simp only [addToBalance, hlen, if_false] at hadd
    obtain ⟨hct, hsum⟩ := T.addUint32_ok _ _ _ _ hadd
    have hwritten := stored_written (T := T) hct hstored
    simpa [balanceOf, hempty, hsum, hdec, limitOf] using hwritten

theorem debitAccount_written {amount : UInt64} {key : List UInt8}
    (h : debitAccount T ctx a amount key s = .ok u t) :
    amount ≤ limitOf A s a ∧
      Written A T s t a (limitOf A s a - amount) (balanceOf A T s a - amount.toUInt32) := by
  obtain ⟨hne, hle, encAmount, ct, henc, hsub, hstored⟩ := debitAccount_ok h
  obtain ⟨-, hdec⟩ := T.encryptWithServerKey_ok _ _ _ henc
  obtain ⟨hct, hdiff⟩ := T.subUint32_ok _ _ _ _ hsub
  have hwritten := stored_written (T := T) hct hstored
  refine ⟨hle, ?_⟩
  simpa [balanceOf, hne, hdiff, hdec, limitOf] using hwritten

/-- What the calls that return have done: a registration leaves the balances
alone, a mint credits, a transfer debits and then credits. -/
theorem mint_written {recipient : AccAddress} {amount : UInt32} {key : List UInt8}
    (h : confidentialMintZYTD T ctx recipient amount key s = .ok u t) :
    Written A T s t recipient (raiseLimit (limitOf A s recipient) amount.toUInt64)
      (balanceOf A T s recipient + amount) := by
  obtain ⟨_, _, _, hcredit⟩ := confidentialMintZYTD_ok h
  simpa using creditAccount_written hcredit

theorem transfer_written {sender recipient : AccAddress} {amount : UInt64} {key : List UInt8}
    (h : confidentialTransferZYTD T ctx sender recipient amount key s = .ok u t) :
    amount.toNat < 2 ^ 32 ∧ amount ≤ limitOf A s sender ∧ ∃ m,
      Written A T s m sender (limitOf A s sender - amount)
        (balanceOf A T s sender - amount.toUInt32) ∧
      Written A T m t recipient (raiseLimit (limitOf A m recipient) amount)
        (balanceOf A T m recipient + amount.toUInt32) := by
  obtain ⟨hmax, _, m, _, _, _, hdebit, hcredit⟩ := confidentialTransferZYTD_ok h
  obtain ⟨hle, hwritten⟩ := debitAccount_written hdebit
  refine ⟨?_, hle, m, hwritten, creditAccount_written hcredit⟩
  exact Nat.lt_of_le_of_lt (UInt64.le_iff_toNat_le.mp hmax) (by decide)

theorem register_states {addr : AccAddress} {pubKey : List UInt8}
    (h : setUserTFHEPublicKey A addr pubKey s = .ok u t) : t.states = s.states := by
  simp only [setUserTFHEPublicKey, bind_ok, require_ok, modifyStore_ok] at h
  obtain ⟨_, _, ⟨-, rfl⟩, _, _, ⟨-, rfl⟩, rfl⟩ := h
  rfl

end Writes

section Steps
variable {A : App} {T : Tfhe} {s t : Accounts} {a : AccAddress} {amount : UInt64}

/-- An amount that passes the bound of the handlers keeps its value as a plaintext. -/
theorem plaintext_toNat (h : amount.toNat < 2 ^ 32) : amount.toUInt32.toNat = amount.toNat := by
  rw [UInt64.toNat_toUInt32, Nat.mod_eq_of_lt h]

theorem raiseLimit_toNat {limit : UInt64} (h : limit.toNat + amount.toNat < 2 ^ 64) :
    (raiseLimit limit amount).toNat = limit.toNat + amount.toNat := by
  have hsum : (limit + amount).toNat = limit.toNat + amount.toNat := by
    rw [UInt64.toNat_add, Nat.mod_eq_of_lt h]
  have hnotlt : ¬ limit + amount < limit := by
    rw [UInt64.lt_iff_toNat_lt, hsum]
    omega
  rw [raiseLimit]
  simp only [hnotlt, if_false, hsum]

theorem Exact.posted {limit : UInt64} {balance : UInt32} (hs : Exact A T s)
    (h : Posted A T s t a limit balance) (heq : limit.toNat = balance.toNat) : Exact A T t := by
  intro b
  by_cases hb : b = a
  · rw [hb, h.limit, h.balance, heq]
  · rw [(h.others b hb).1, (h.others b hb).2]
    exact hs b

/-- A credit keeps limit and balance equal below `2 ^ 32` and breaks the cover
beyond. -/
theorem Exact.credit (hs : Exact A T s) (hamount : amount.toNat < 2 ^ 32)
    (h : Posted A T s t a (raiseLimit (limitOf A s a) amount)
      (balanceOf A T s a + amount.toUInt32)) :
    ((limitOf A s a).toNat + amount.toNat < 2 ^ 32 → Exact A T t) ∧
      (Covered A T t → (limitOf A s a).toNat + amount.toNat < 2 ^ 32) := by
  have hbalance : (balanceOf A T s a).toNat < 2 ^ 32 := UInt32.toNat_lt _
  have hlimit : (raiseLimit (limitOf A s a) amount).toNat =
      (limitOf A s a).toNat + amount.toNat := raiseLimit_toNat (by rw [hs a]; omega)
  have hsum : (balanceOf A T s a + amount.toUInt32).toNat =
      ((limitOf A s a).toNat + amount.toNat) % 2 ^ 32 := by
    rw [UInt32.toNat_add, plaintext_toNat hamount, hs a]
  constructor
  · intro hfits
    refine hs.posted h ?_
    rw [hlimit, hsum, Nat.mod_eq_of_lt hfits]
  · intro hcovered
    have ha := hcovered a
    rw [h.limit, h.balance, hlimit, hsum] at ha
    have hlt := Nat.mod_lt ((limitOf A s a).toNat + amount.toNat) (Nat.two_pow_pos 32)
    omega

theorem Exact.debit (hs : Exact A T s) (hamount : amount.toNat < 2 ^ 32)
    (hle : amount ≤ limitOf A s a)
    (h : Posted A T s t a (limitOf A s a - amount) (balanceOf A T s a - amount.toUInt32)) :
    Exact A T t := by
  have hle' : amount.toUInt32 ≤ balanceOf A T s a := by
    rw [UInt32.le_iff_toNat_le, plaintext_toNat hamount, ← hs a]
    exact UInt64.le_iff_toNat_le.mp hle
  refine hs.posted h ?_
  rw [UInt64.toNat_sub_of_le _ _ hle, UInt32.toNat_sub_of_le _ _ hle', plaintext_toNat hamount,
    hs a]

end Steps

section Cover
variable {A : App} {T : Tfhe}

theorem Exact.covered {s : Accounts} (hs : Exact A T s) : Covered A T s := fun a => (hs a).le

/-- What one accepted call does to accounts whose limits are exact. -/
theorem Exact.step {s : Accounts} {i : ConfInput A} (hs : Exact A T s) (hi : Accepted T s i) :
    ((NoUnderflow T s i ∧ Covered A T (advance T s i)) ↔ Fits s i) ∧
      (Fits s i → Exact A T (advance T s i)) := by
  obtain ⟨t, ht⟩ := hi
  have hadvance : advance T s i = t := commit_ok ht
  rw [hadvance]
  -- it is enough that the cover asks for the fit and the fit gives exactness
  suffices hboth : NoUnderflow T s i ∧ (Covered A T t → Fits s i) ∧ (Fits s i → Exact A T t) by
    obtain ⟨hno, hfits, hexact⟩ := hboth
    exact ⟨⟨fun h => hfits h.2, fun h => ⟨hno, (hexact h).covered⟩⟩, hexact⟩
  cases i with
  | register addr pubKey =>
      refine ⟨trivial, fun _ => trivial, fun _ a => ?_⟩
      simp only [limitOf, balanceOf, accountState, register_states ht]
      exact hs a
  | mint ctx recipient amount serverKey =>
      have hamount : amount.toUInt64.toNat < 2 ^ 32 := by
        rw [UInt32.toNat_toUInt64]
        exact UInt32.toNat_lt _
      have hposted := (mint_written ht).posted
      obtain ⟨hkeep, hbreak⟩ := hs.credit hamount (by simpa using hposted)
      rw [UInt32.toNat_toUInt64] at hkeep hbreak
      exact ⟨trivial, hbreak, hkeep⟩
  | transfer ctx sender recipient amount serverKey =>
      obtain ⟨hamount, hle, m, hdebit, hcredit⟩ := transfer_written ht
      have hposted := hdebit.posted
      have hm := hs.debit hamount hle hposted
      have hle' := UInt64.le_iff_toNat_le.mp hle
      obtain ⟨hkeep, hbreak⟩ := hm.credit hamount hcredit.posted
      refine ⟨?_, ?_⟩
      · show amount.toNat ≤ (balanceOf A T s sender).toNat
        rw [← hs sender]
        exact hle'
      · by_cases hself : sender = recipient
        · subst hself
          have hlimit : (limitOf A m sender).toNat + amount.toNat < 2 ^ 32 := by
            rw [hposted.limit, UInt64.toNat_sub_of_le _ _ hle, Nat.sub_add_cancel hle', hs sender]
            exact UInt32.toNat_lt _
          exact ⟨fun _ => .inl rfl, fun _ => hkeep hlimit⟩
        · rw [(hposted.others recipient (Ne.symm hself)).1] at hkeep hbreak
          refine ⟨fun h => .inr (hbreak h), ?_⟩
          rintro (h | h)
          · exact (hself h).elim
          · exact hkeep h

/-- Before anything was minted or registered. -/
def noAccounts : Accounts := ⟨∅, ∅⟩

theorem noAccounts_exact : Exact A T noAccounts := fun _ => rfl

/-- Along a run of accepted calls every limit is covered by its balance, and so
no transfer underflows, exactly when no credit takes a limit to `2 ^ 32`. -/
theorem credit_covered_iff (inputs : List (ConfInput A))
    (haccepted : Along (advance T) (Accepted T) noAccounts inputs) :
    (Covered A T noAccounts ∧ Along (advance T) (fun s i => NoUnderflow T s i ∧
      Covered A T (advance T s i)) noAccounts inputs) ↔
    Along (advance T) Fits noAccounts inputs := by
  have hiff := along_congr (Exact A T) (fun s i hs hi => hs.step hi) inputs noAccounts
    noAccounts_exact haccepted
  rw [hiff]
  exact and_iff_right noAccounts_exact.covered

end Cover

section Wrapped
open Devnet

/-- A ciphertext that is the number in four bytes. -/
def plainBytes (m : UInt32) : List UInt8 :=
  (List.range 4).map fun i => UInt8.ofNat (m.toNat / 256 ^ i)

def plainValue (ct : List UInt8) : UInt32 :=
  UInt32.ofNat (ct.foldr (fun b n => b.toNat + 256 * n) 0)

theorem plainValue_plainBytes (m : UInt32) : plainValue (plainBytes m) = m := by
  have hlt : m.toNat < 2 ^ 32 := UInt32.toNat_lt m
  have hsum : (plainBytes m).foldr (fun b n => b.toNat + 256 * n) 0 = m.toNat := by
    simp only [plainBytes, List.range, List.range.loop, List.map_cons, List.map_nil,
      List.foldr_cons, List.foldr_nil, UInt8.toNat_ofNat']
    omega
  rw [plainValue, hsum, UInt32.ofNat_toNat]

def plainTfhe : Tfhe where
  encryptWithPublicKey _ m := .ok (plainBytes m)
  encryptWithServerKey _ m := .ok (plainBytes m)
  addUint32 _ c₁ c₂ := .ok (plainBytes (plainValue c₁ + plainValue c₂))
  subUint32 _ c₁ c₂ := .ok (plainBytes (plainValue c₁ - plainValue c₂))
  decrypt := plainValue
  encryptWithPublicKey_ok := by
    rintro _ m _ ⟨⟩
    exact ⟨by simp [plainBytes], plainValue_plainBytes m⟩
  encryptWithServerKey_ok := by
    rintro _ m _ ⟨⟩
    exact ⟨by simp [plainBytes], plainValue_plainBytes m⟩
  addUint32_ok := by
    rintro _ c₁ c₂ _ ⟨⟩
    exact ⟨by simp [plainBytes], plainValue_plainBytes _⟩
  subUint32_ok := by
    rintro _ c₁ c₂ _ ⟨⟩
    exact ⟨by simp [plainBytes], plainValue_plainBytes _⟩

def tfheKey : List UInt8 := List.replicate 1024 1

/-- Every call of a run returns. -/
def Returning (inputs : List (ConfInput devnet)) : Prop :=
  Along (advance plainTfhe) (fun s i => (i.call plainTfhe s).returned = some ()) noAccounts inputs

theorem Returning.accepted {inputs : List (ConfInput devnet)} (h : Returning inputs) :
    Along (advance plainTfhe) (Accepted plainTfhe) noAccounts inputs :=
  h.imp fun _ _ => returned_iff.mp

/-- `alice` is credited with all that 32 bits can hold and with one more. -/
def overMinted : List (ConfInput devnet) :=
  [.register alice tfheKey, .register bob tfheKey, .mint block alice 4294967295 [1],
    .mint block alice 1 [1]]

def sendsSeven : ConfInput devnet := .transfer block alice bob 7 [1]

theorem overMinted_facts : Returning (overMinted ++ [sendsSeven]) ∧
    limitOf devnet (run (advance plainTfhe) noAccounts overMinted) alice = 4294967296 ∧
    balanceOf devnet plainTfhe (run (advance plainTfhe) noAccounts overMinted) alice = 0 ∧
    balanceOf devnet plainTfhe
      (run (advance plainTfhe) noAccounts (overMinted ++ [sendsSeven])) alice = 4294967289 := by
  unfold Returning
  decide +kernel

/-- The limit reads `2 ^ 32`, the balance zero; a transfer is accepted and wraps. -/
theorem overMinted_uncovered :
    Along (advance plainTfhe) (Accepted plainTfhe) noAccounts (overMinted ++ [sendsSeven]) ∧
    ¬ Covered devnet plainTfhe (run (advance plainTfhe) noAccounts overMinted) ∧
    ¬ NoUnderflow plainTfhe (run (advance plainTfhe) noAccounts overMinted) sendsSeven ∧
    balanceOf devnet plainTfhe
      (run (advance plainTfhe) noAccounts (overMinted ++ [sendsSeven])) alice = 4294967289 := by
  obtain ⟨hreturning, hlimit, hbalance, hwrapped⟩ := overMinted_facts
  refine ⟨hreturning.accepted, ?_, ?_, hwrapped⟩
  · intro h
    have hle := h alice
    rw [hlimit, hbalance] at hle
    exact absurd hle (by decide)
  · simp only [sendsSeven, NoUnderflow, hbalance]
    decide

/-- `alice` mints one hundred and sends forty. -/
def smallRun : List (ConfInput devnet) :=
  [.register alice tfheKey, .register bob tfheKey, .mint block alice 100 [1],
    .transfer block alice bob 40 [1]]

theorem smallRun_facts : Returning smallRun ∧
    Along (advance plainTfhe) Fits noAccounts smallRun := by
  unfold Returning
  decide +kernel

theorem credit_covered_smallRun :
    Covered devnet plainTfhe noAccounts ∧ Along (advance plainTfhe) (fun s i =>
      NoUnderflow plainTfhe s i ∧ Covered devnet plainTfhe (advance plainTfhe s i)) noAccounts
      smallRun :=
  (credit_covered_iff smallRun smallRun_facts.1.accepted).mpr smallRun_facts.2

end Wrapped

end Zytherion.CreditLimit
