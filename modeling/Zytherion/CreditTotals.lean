import Zytherion.CreditLimit

/-!
# Confidential transfers conserve credit

The limits of all accounts add up to what was minted, and so do, modulo
`2 ^ 32`, the numbers their balances decrypt to. A transfer writes its sender
before it reads its recipient. With two accounts the debit and the credit cancel
in the sums; with one account the credit reads what the debit has just written,
and undoes it.
-/
namespace Zytherion.CreditTotals

open GoCall KeyedStore Application ChainState ConfidentialKeeper CreditLimit

section Sums
variable (T : Tfhe)

def limitShare (state : ZYTDAccountState) : ℤ := state.publicCreditLimit.toNat

/-- What the state's balance decrypts to, zero where there is none. -/
def balanceShare (state : ZYTDAccountState) : ℤ :=
  if state.encryptedBalance = [] then 0 else (T.decrypt state.encryptedBalance).toNat

def totalLimit (s : Accounts) : ℤ := s.states.total limitShare

def totalBalance (s : Accounts) : ℤ := s.states.total (balanceShare T)

variable {A : App}

/-- The credit leaves the recipient's limit below `2 ^ 64`. A transfer to oneself
credits what it debits. -/
def Uncapped (s : Accounts) : ConfInput A → Prop
  | .register _ _ => True
  | .mint _ recipient amount _ => (limitOf A s recipient).toNat + amount.toNat < 2 ^ 64
  | .transfer _ sender recipient amount _ =>
      sender = recipient ∨ (limitOf A s recipient).toNat + amount.toNat < 2 ^ 64

/-- What a call asks to mint. -/
def mintAmount : ConfInput A → ℤ
  | .register _ _ => 0
  | .mint _ _ amount _ => amount.toNat
  | .transfer _ _ _ _ _ => 0

/-- What it does mint: nothing if it fails. -/
def mintedBy (s : Accounts) (i : ConfInput A) : ℤ :=
  if (i.call T s).returned.isSome then mintAmount i else 0

def minted : Accounts → List (ConfInput A) → ℤ
  | _, [] => 0
  | s, i :: inputs => mintedBy T s i + minted (advance T s i) inputs

end Sums

/-- The books add up, and every entry belongs to an account. -/
structure Conserved (A : App) (T : Tfhe) (s : Accounts) (amount : ℤ) : Prop where
  limits : totalLimit s = amount
  balances : totalBalance T s % 2 ^ 32 = amount % 2 ^ 32
  owned : ∀ k state, s.states.get k = some state → ∃ a, k = zytdStateKey A a

section Writes
variable {A : App} {T : Tfhe} {s t : Accounts} {a : AccAddress} {limit : UInt64}
  {balance : UInt32}

theorem share_limit (s : Accounts) (a : AccAddress) :
    Store.share limitShare (s.states.get (zytdStateKey A a)) = (limitOf A s a).toNat := by
  unfold limitOf accountState
  cases s.states.get (zytdStateKey A a) with
  | none => rfl
  | some state => rfl

theorem share_balance (s : Accounts) (a : AccAddress) :
    Store.share (balanceShare T) (s.states.get (zytdStateKey A a)) =
      (balanceOf A T s a).toNat := by
  unfold balanceOf accountState
  cases s.states.get (zytdStateKey A a) with
  | none => rfl
  | some state =>
      simp only [Store.share_some, balanceShare, Option.getD_some]
      split_ifs <;> rfl

theorem totalLimit_written (h : Written A T s t a limit balance) :
    totalLimit t = totalLimit s - (limitOf A s a).toNat + limit.toNat := by
  obtain ⟨state, hstates, hlimit, -⟩ := h
  rw [totalLimit, hstates, Store.total_set, share_limit, limitShare, hlimit, totalLimit]

theorem totalBalance_written (h : Written A T s t a limit balance) :
    totalBalance T t = totalBalance T s - (balanceOf A T s a).toNat + balance.toNat := by
  obtain ⟨state, hstates, -, hne, hbalance⟩ := h
  rw [totalBalance, hstates, Store.total_set, share_balance, balanceShare, if_neg hne, hbalance,
    totalBalance]

theorem owned_written (h : Written A T s t a limit balance)
    (hs : ∀ k state, s.states.get k = some state → ∃ a, k = zytdStateKey A a) :
    ∀ k state, t.states.get k = some state → ∃ a, k = zytdStateKey A a := by
  obtain ⟨state, hstates, -⟩ := h
  intro k other hk
  by_cases hkey : k = zytdStateKey A a
  · exact ⟨a, hkey⟩
  · rw [hstates, Store.get_set_ne _ _ hkey] at hk
    exact hs k other hk

variable {amount : UInt64} {total : ℤ}

/-- A credit below the cap adds its amount to both sums. -/
theorem Conserved.credit (hs : Conserved A T s total) (hamount : amount.toNat < 2 ^ 32)
    (hcap : (limitOf A s a).toNat + amount.toNat < 2 ^ 64)
    (h : Written A T s t a (raiseLimit (limitOf A s a) amount)
      (balanceOf A T s a + amount.toUInt32)) :
    Conserved A T t (total + amount.toNat) := by
  have hlimit := totalLimit_written h
  have hbalance := totalBalance_written h
  rw [raiseLimit_toNat hcap, hs.limits] at hlimit
  rw [UInt32.toNat_add, plaintext_toNat hamount] at hbalance
  have hold := hs.balances
  refine ⟨?_, ?_, owned_written h hs.owned⟩
  · omega
  · omega

/-- A debit takes its amount from both. -/
theorem Conserved.debit (hs : Conserved A T s total) (hamount : amount.toNat < 2 ^ 32)
    (hle : amount ≤ limitOf A s a)
    (h : Written A T s t a (limitOf A s a - amount) (balanceOf A T s a - amount.toUInt32)) :
    Conserved A T t (total - amount.toNat) := by
  have hlimit := totalLimit_written h
  have hbalance := totalBalance_written h
  have hle' := UInt64.le_iff_toNat_le.mp hle
  rw [UInt64.toNat_sub_of_le _ _ hle, hs.limits] at hlimit
  rw [UInt32.toNat_sub, plaintext_toNat hamount] at hbalance
  have hold := hs.balances
  refine ⟨?_, ?_, owned_written h hs.owned⟩
  · omega
  · omega

end Writes

section Transfers
variable {A : App} {T : Tfhe} {ctx : Ctx A} {s t : Accounts} {sender recipient : AccAddress}
  {amount : UInt64} {key : List UInt8} {u : Unit}

/-- Nobody else is touched. -/
theorem transfer_others (h : confidentialTransferZYTD T ctx sender recipient amount key s = .ok u t)
    {b : AccAddress} (hsender : b ≠ sender) (hrecipient : b ≠ recipient) :
    accountState A t b = accountState A s b := by
  obtain ⟨-, -, m, hdebit, hcredit⟩ := transfer_written h
  rw [hcredit.accountState_ne hrecipient, hdebit.accountState_ne hsender]

/-- The debit leaves the recipient's limit where the credit fits. -/
theorem recipient_uncapped {m : Accounts} (hle : amount ≤ limitOf A s sender)
    (hm : Posted A T s m sender (limitOf A s sender - amount)
      (balanceOf A T s sender - amount.toUInt32))
    (hcap : sender = recipient ∨ (limitOf A s recipient).toNat + amount.toNat < 2 ^ 64) :
    (limitOf A m recipient).toNat + amount.toNat < 2 ^ 64 := by
  have hlt : (limitOf A s sender).toNat < 2 ^ 64 := UInt64.toNat_lt _
  by_cases hself : sender = recipient
  · subst hself
    have hle' := UInt64.le_iff_toNat_le.mp hle
    rw [hm.limit, UInt64.toNat_sub_of_le _ _ hle]
    omega
  · rw [(hm.others recipient (Ne.symm hself)).1]
    exact hcap.resolve_left hself

/-- A transfer to oneself changes neither limit nor balance. -/
theorem transfer_self (h : confidentialTransferZYTD T ctx sender sender amount key s = .ok u t) :
    limitOf A t sender = limitOf A s sender ∧ balanceOf A T t sender = balanceOf A T s sender := by
  obtain ⟨-, hle, m, hdebit, hcredit⟩ := transfer_written h
  have hm := hdebit.posted
  have hcap := recipient_uncapped hle hm (.inl rfl)
  have hle' := UInt64.le_iff_toNat_le.mp hle
  rw [hcredit.posted.limit, hcredit.posted.balance]
  constructor
  · rw [← UInt64.toNat_inj, raiseLimit_toNat hcap, hm.limit, UInt64.toNat_sub_of_le _ _ hle]
    omega
  · rw [hm.balance, UInt32.sub_add_cancel]

end Transfers

section Runs
variable {A : App} {T : Tfhe} {s : Accounts} {total : ℤ}

theorem mintedBy_of_accepted {t : Accounts} {i : ConfInput A} {u : Unit}
    (h : i.call T s = .ok u t) : mintedBy T s i = mintAmount i := by
  rw [mintedBy, h]
  rfl

theorem mintedBy_of_not_accepted {i : ConfInput A} (h : ∀ u t, i.call T s ≠ .ok u t) :
    mintedBy T s i = 0 := by
  have hnone : (i.call T s).returned = none := by
    rw [Option.eq_none_iff_forall_ne_some]
    intro u hu
    obtain ⟨t, ht⟩ := returned_iff.mp hu
    exact h u t ht
  rw [mintedBy, hnone]
  rfl

/-- One call, whether it returns or not. -/
theorem Conserved.step {i : ConfInput A} (hs : Conserved A T s total)
    (hcap : Accepted T s i → Uncapped s i) :
    Conserved A T (advance T s i) (total + mintedBy T s i) := by
  rcases commit_cases (i.call T) s with ⟨u, h⟩ | ⟨hno, hsame⟩
  · have hfits := hcap ⟨_, h⟩
    change i.call T s = .ok u (advance T s i) at h
    rw [mintedBy_of_accepted h]
    cases i with
    | register addr pubKey =>
        have hstates := register_states h
        simp only [mintAmount, add_zero]
        refine ⟨?_, ?_, ?_⟩
        · rw [totalLimit, hstates, ← totalLimit, hs.limits]
        · rw [totalBalance, hstates, ← totalBalance, hs.balances]
        · rw [hstates]
          exact hs.owned
    | mint ctx recipient amount key =>
        have hwritten := mint_written h
        have hamount : amount.toUInt64.toNat < 2 ^ 32 := by
          rw [UInt32.toNat_toUInt64]
          exact UInt32.toNat_lt _
        rw [mintAmount, ← UInt32.toNat_toUInt64]
        refine hs.credit hamount ?_ (by simpa using hwritten)
        rw [UInt32.toNat_toUInt64]
        exact hfits
    | transfer ctx sender recipient amount key =>
        obtain ⟨hamount, hle, m, hdebit, hcredit⟩ := transfer_written h
        have hm := hs.debit hamount hle hdebit
        have ht := hm.credit hamount (recipient_uncapped hle hdebit.posted hfits) hcredit
        rw [sub_add_cancel] at ht
        rwa [mintAmount, add_zero]
  · change advance T s i = s at hsame
    rw [hsame, mintedBy_of_not_accepted hno, add_zero]
    exact hs

theorem Conserved.run {inputs : List (ConfInput A)} (hs : Conserved A T s total)
    (hcap : Along (advance T) (fun s i => Accepted T s i → Uncapped s i) s inputs) :
    Conserved A T (run (advance T) s inputs) (total + minted T s inputs) := by
  induction inputs generalizing s total with
  | nil => rwa [run_nil, minted, add_zero]
  | cons i inputs ih =>
      obtain ⟨hi, hrest⟩ := hcap
      rw [run_cons, minted, ← add_assoc]
      exact ih (hs.step hi) hrest

theorem noAccounts_conserved : Conserved A T noAccounts 0 :=
  ⟨rfl, rfl, fun _ _ h => by cases h⟩

/-- The limits of all accounts add up to what was minted, the balances modulo
`2 ^ 32`; a transfer touches its two parties, and a transfer to oneself nothing. -/
theorem credit_conserved (inputs : List (ConfInput A))
    (hcap : Along (advance T) (fun s i => Accepted T s i → Uncapped s i) noAccounts inputs) :
    Conserved A T (GoCall.run (advance T) noAccounts inputs) (minted T noAccounts inputs) ∧
    ∀ (ctx : Ctx A) (sender recipient : AccAddress) (amount : UInt64) (key : List UInt8)
      (s t : Accounts), confidentialTransferZYTD T ctx sender recipient amount key s = .ok () t →
        (∀ b, b ≠ sender → b ≠ recipient → accountState A t b = accountState A s b) ∧
        (sender = recipient → limitOf A t sender = limitOf A s sender ∧
          balanceOf A T t sender = balanceOf A T s sender) := by
  constructor
  · have hrun := noAccounts_conserved.run hcap
    rwa [zero_add] at hrun
  · intro ctx sender recipient amount key s t h
    refine ⟨fun b hsender hrecipient => transfer_others h hsender hrecipient, ?_⟩
    rintro rfl
    exact transfer_self h

open Devnet in
/-- `alice` mints one hundred and sends forty. -/
theorem credit_conserved_smallRun : Conserved devnet plainTfhe
    (GoCall.run (advance plainTfhe) noAccounts smallRun)
    (minted plainTfhe noAccounts smallRun) := by
  refine (credit_conserved smallRun (smallRun_facts.2.imp ?_)).1
  intro s i hfits _
  cases i with
  | register addr pubKey => trivial
  | mint ctx recipient amount key => exact Nat.lt_trans hfits (by decide)
  | transfer ctx sender recipient amount key =>
      exact hfits.imp_right fun h => Nat.lt_trans h (by decide)

end Runs

end Zytherion.CreditTotals
