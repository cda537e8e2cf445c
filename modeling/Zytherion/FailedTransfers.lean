import Zytherion.CreditLimit
import Zytherion.CallFrames

/-!
# Transfers that fail

A confidential transfer writes the sender's account before it looks at the
recipient. The keeper takes nothing back: a transfer that fails for want of the
recipient's key, or because the library refuses an operation for the recipient,
has already been paid for. Every other failure comes before the first write.
-/
namespace Zytherion.FailedTransfers

open GoCall KeyedStore Application ChainState ConfidentialKeeper CreditLimit

section Sides
variable (A : App) (T : TfheOps) (s : Accounts)

/-- The sending side of a transfer goes through, and `ct` is the new balance. -/
structure Pays (sender : AccAddress) (amount : UInt64) (key ct : List UInt8) : Prop where
  amount_pos : amount ≠ 0
  amount_le : amount ≤ maxUint32
  serverKey : key ≠ []
  balance : (accountState A s sender).encryptedBalance ≠ []
  covered : amount ≤ (accountState A s sender).publicCreditLimit
  subtracted : ∃ encAmount, T.encryptWithServerKey key amount.toUInt32 = .ok encAmount ∧
    T.subUint32 key (accountState A s sender).encryptedBalance encAmount = .ok ct

/-- The receiving side goes through, for a recipient with the given balance. -/
def Receives (recipient : AccAddress) (amount : UInt64) (key balance : List UInt8) : Prop :=
  ∃ pubKey encAmount ct, s.pubKeys.get (userPubKeyStoreKey A recipient) = some pubKey ∧
    T.encryptWithPublicKey pubKey amount.toUInt32 = .ok encAmount ∧
    addToBalance T key balance encAmount = .ok ct

end Sides

section Calls
variable {A : App} {T : TfheOps} {ctx : Ctx A} {s m t : Accounts} {sender recipient : AccAddress}
  {amount : UInt64} {key ct : List UInt8} {u : Unit} {e : Err} {c₁ c₂ c₃ : String}

theorem debitAccount_clean (T : TfheOps) (ctx : Ctx A) (sender : AccAddress) (amount : UInt64)
    (key : List UInt8) : Clean (debitAccount T ctx sender amount key) :=
  .bind (.gets _) fun _ => .bind (.require _ _) fun _ => .bind (.require _ _) fun _ =>
    .bind (.mapErr _ (.ofExcept _)) fun _ => .bind (.mapErr _ (.ofExcept _)) fun _ =>
      .modifyStore _

theorem creditAccount_clean (T : TfheOps) (ctx : Ctx A) (recipient : AccAddress) (amount : UInt64)
    (key : List UInt8) (c₁ c₂ c₃ : String) :
    Clean (creditAccount T ctx recipient amount key c₁ c₂ c₃) :=
  .bind (.lookup _ _) fun _ => .bind (.mapErr _ (.ofExcept _)) fun _ => .bind (.gets _) fun _ =>
    .bind (.mapErr _ (.ofExcept _)) fun _ => .modifyStore _

theorem creditAccount_noPanic (T : TfheOps) (ctx : Ctx A) (recipient : AccAddress)
    (amount : UInt64) (key : List UInt8) (c₁ c₂ c₃ : String) :
    NoPanic (creditAccount T ctx recipient amount key c₁ c₂ c₃) :=
  .bind (.lookup _ _) fun _ => .bind (.mapErr _ (.ofExcept _)) fun _ => .bind (.gets _) fun _ =>
    .bind (.mapErr _ (.ofExcept _)) fun _ => .modifyStore _

/-- The credit goes through exactly when the receiving side does. -/
theorem creditAccount_ok_iff :
    (∃ t, creditAccount T ctx recipient amount key c₁ c₂ c₃ s = .ok () t) ↔
      Receives A T s recipient amount key (accountState A s recipient).encryptedBalance := by
  constructor
  · rintro ⟨t, h⟩
    obtain ⟨pubKey, encAmount, ct, hkey, henc, hadd, -⟩ := creditAccount_ok h
    exact ⟨pubKey, encAmount, ct, hkey, henc, hadd⟩
  · rintro ⟨pubKey, encAmount, ct, hkey, henc, hadd⟩
    simp only [creditAccount, getZYTDAccountState, bind_ok, lookup_ok, mapErr_ok, ofExcept_ok,
      gets_ok]
    exact ⟨_, pubKey, s, ⟨hkey, rfl⟩, encAmount, s, ⟨henc, rfl⟩, _, s, ⟨rfl, rfl⟩, ct, s,
      ⟨hadd, rfl⟩, rfl⟩

/-- A payment changes the sender's limit and balance, and no key. -/
theorem Pays.debit (ctx : Ctx A) (h : Pays A T s sender amount key ct) :
    ∃ m, debitAccount T ctx sender amount key s = .ok () m ∧
      Stored A s m sender ct ((accountState A s sender).publicCreditLimit - amount) := by
  obtain ⟨encAmount, henc, hsub⟩ := h.subtracted
  have hlen : (accountState A s sender).encryptedBalance.length ≠ 0 := by
    simpa using h.balance
  let state : ZYTDAccountState := ⟨ct, (accountState A s sender).publicCreditLimit - amount,
    ctx.height, Int64.ofNat ct.length⟩
  refine ⟨{ s with states := s.states.set (zytdStateKey A sender) state }, ?_,
    ⟨⟨state, rfl, rfl, rfl⟩, rfl⟩⟩
  simp only [debitAccount, getZYTDAccountState, bind_ok, gets_ok, require_ok, mapErr_ok,
    ofExcept_ok, bne_iff_ne, ne_eq, Bool.not_eq_true', decide_eq_false_iff_not, UInt64.not_lt]
  exact ⟨_, s, ⟨rfl, rfl⟩, (), s, ⟨hlen, rfl⟩, (), s, ⟨h.covered, rfl⟩, encAmount, s, ⟨henc, rfl⟩,
    ct, s, ⟨hsub, rfl⟩, rfl⟩

theorem Pays.changes (h : Pays A T s sender amount key ct)
    (hm : Stored A s m sender ct ((accountState A s sender).publicCreditLimit - amount)) :
    m ≠ s := by
  rintro rfl
  obtain ⟨state, hstates, -, hlimit⟩ := hm.states
  have hsender := accountState_set hstates sender
  rw [if_pos rfl] at hsender
  rw [← hsender] at hlimit
  have hzero : amount = 0 := by grind
  exact h.amount_pos hzero

/-- The balance the credit finds: after a payment to oneself, what the payment
left. -/
def balanceMet (A : App) (s : Accounts) (sender recipient : AccAddress) (ct : List UInt8) :
    List UInt8 :=
  if recipient = sender then ct else (accountState A s recipient).encryptedBalance

theorem receives_stored {limit : UInt64} (hm : Stored A s m sender ct limit) :
    Receives A T m recipient amount key (accountState A m recipient).encryptedBalance ↔
      Receives A T s recipient amount key (balanceMet A s sender recipient ct) := by
  obtain ⟨state, hstates, hbalance, -⟩ := hm.states
  have hmet : (accountState A m recipient).encryptedBalance =
      balanceMet A s sender recipient ct := by
    rw [accountState_set hstates, balanceMet]
    split_ifs
    · exact hbalance
    · rfl
  rw [hmet]
  unfold Receives
  rw [hm.pubKeys]

def receiveTransfer (T : TfheOps) (ctx : Ctx A) (recipient : AccAddress) (amount : UInt64)
    (key : List UInt8) : ConfExec Unit :=
  creditAccount T ctx recipient amount key
    "they must call MsgRegisterUserTFHEPublicKey before receiving"
    "stablecoin: encrypt transfer amount for recipient"
    "stablecoin: homomorphic add (recipient credit)"

/-- A failed transfer changed nothing, or had paid when the credit failed. -/
theorem transfer_err (h : confidentialTransferZYTD T ctx sender recipient amount key s = .err e t) :
    t = s ∨ ∃ ct m, Pays A T s sender amount key ct ∧
      Stored A s m sender ct ((accountState A s sender).publicCreditLimit - amount) ∧
      receiveTransfer T ctx recipient amount key m = .err e t := by
  simp only [confidentialTransferZYTD, bind_err, require_err, require_ok] at h
  rcases h with ⟨-, -, rfl⟩ | ⟨_, _, ⟨hpos, rfl⟩, ⟨-, -, rfl⟩ | ⟨_, _, ⟨hmax, rfl⟩,
    ⟨-, -, rfl⟩ | ⟨_, _, ⟨hkey, rfl⟩, hdebit | ⟨_, m, hdebit, hcredit⟩⟩⟩⟩
  · exact .inl rfl
  · exact .inl rfl
  · exact .inl rfl
  · exact .inl (debitAccount_clean T ctx sender amount key s e t hdebit)
  · obtain ⟨hbalance, hcovered, encAmount, ct, henc, hsub, hm⟩ := debitAccount_ok hdebit
    refine .inr ⟨ct, m, ⟨by simpa using hpos, by simpa using hmax, ?_, hbalance, hcovered,
      encAmount, henc, hsub⟩, hm, hcredit⟩
    rintro rfl
    simp at hkey

theorem Pays.transfer_err (h : Pays A T s sender amount key ct)
    (hdebit : debitAccount T ctx sender amount key s = .ok () m)
    (hcredit : receiveTransfer T ctx recipient amount key m = .err e t) :
    confidentialTransferZYTD T ctx sender recipient amount key s = .err e t := by
  simp only [confidentialTransferZYTD, bind_err, require_err, require_ok]
  exact .inr ⟨(), s, ⟨by simpa using h.amount_pos, rfl⟩, .inr ⟨(), s,
    ⟨by simpa using h.amount_le, rfl⟩, .inr ⟨(), s, ⟨by simpa using h.serverKey, rfl⟩,
    .inr ⟨(), m, hdebit, hcredit⟩⟩⟩⟩

/-- A failed transfer leaves the store as it was when a sender who can pay has a
recipient who can be credited, and otherwise not. -/
theorem failed_transfer_untouched_iff (T : TfheOps) (ctx : Ctx A) (sender recipient : AccAddress)
    (amount : UInt64) (key : List UInt8) (s : Accounts) :
    (∀ e t, confidentialTransferZYTD T ctx sender recipient amount key s = .err e t → t = s) ↔
      ∀ ct, Pays A T s sender amount key ct →
        Receives A T s recipient amount key (balanceMet A s sender recipient ct) := by
  constructor
  · intro h ct hpays
    obtain ⟨m, hdebit, hm⟩ := hpays.debit ctx
    rw [← receives_stored hm]
    cases hcredit : receiveTransfer T ctx recipient amount key m with
    | ok u t => exact creditAccount_ok_iff.mp ⟨t, hcredit⟩
    | err e t =>
        obtain rfl : t = m := creditAccount_clean T ctx recipient amount key _ _ _ m e t hcredit
        exact absurd (h e t (hpays.transfer_err hdebit hcredit)) (hpays.changes hm)
    | panic r => exact absurd hcredit (creditAccount_noPanic T ctx recipient amount key _ _ _ m r)
  · intro h e t herr
    rcases transfer_err herr with hsame | ⟨ct, m, hpays, hm, hcredit⟩
    · exact hsame
    · obtain ⟨t', hok⟩ := creditAccount_ok_iff.mpr ((receives_stored hm).mpr (h ct hpays))
      exact absurd (hcredit.symm.trans hok) nofun

end Calls

section Unregistered
open Devnet

/-- `alice` has a hundred coins, `bob` no key. -/
def withoutBob : Accounts :=
  run (advance plainTfhe) noAccounts [.register alice tfheKey, .mint block alice 100 [1]]

theorem withoutBob_facts :
    (confidentialTransferZYTD plainTfhe block alice bob 40 [1] withoutBob).returned = none ∧
      ((confidentialTransferZYTD plainTfhe block alice bob 40 [1] withoutBob).left.map fun t =>
        (limitOf devnet t alice, balanceOf devnet plainTfhe t alice, limitOf devnet t bob)) =
        some (60, 60, 0) ∧
      limitOf devnet withoutBob alice = 100 := by
  decide +kernel

/-- The transfer fails, and `alice` has paid forty. -/
theorem failed_transfer_charged : ∃ e t,
    confidentialTransferZYTD plainTfhe block alice bob 40 [1] withoutBob = .err e t ∧
      limitOf devnet withoutBob alice = 100 ∧ limitOf devnet t alice = 60 ∧
      balanceOf devnet plainTfhe t alice = 60 ∧ limitOf devnet t bob = 0 ∧ t ≠ withoutBob := by
  obtain ⟨hreturned, hleft, hbefore⟩ := withoutBob_facts
  cases hrun : confidentialTransferZYTD plainTfhe block alice bob 40 [1] withoutBob with
  | ok u t => simp [hrun, Outcome.returned] at hreturned
  | panic r => simp [hrun, Outcome.left] at hleft
  | err e t =>
      simp only [hrun, Outcome.left, Option.map_some, Option.some.injEq, Prod.mk.injEq] at hleft
      obtain ⟨halice, hbalance, hbob⟩ := hleft
      refine ⟨e, t, rfl, hbefore, halice, hbalance, hbob, ?_⟩
      intro hsame
      rw [hsame, hbefore] at halice
      exact absurd halice (by decide)

end Unregistered

end Zytherion.FailedTransfers
