import Zytherion.DebtLedgers
import Zytherion.VaultSolvency

/-!
# Debt-free depositors can withdraw

Whether an unlock returns depends on what everybody did before: the vault must
hold the coins and the depositor's account must have room for them. Both follow
from facts that hold along every run in which the vault's own account signs
nothing. The vault's books stay solvent, the balances of every denomination stay
backed by its supply, and a position is only ever opened in a denomination the
bank accepts.

The depositor has to be an account that may receive coins. The bank blocks none
but module accounts, which have no keys to sign with.
-/
namespace Zytherion.Withdrawals

open GoCall KeyedStore SdkMath Application ChainState Bank CollateralKeeper StablecoinKeeper
open CollateralMsgServer StablecoinMsgServer Chain Ledger DebtLedgers VaultSolvency Devnet

/-- The vault's account is not the signer. -/
def VaultSilent {A : App} (e : Event A) : Prop := e.signer ≠ some (vault A)

/-- What an unlock relies on. -/
structure Sound (A : App) (s : State) : Prop where
  solvent : Solvent A s
  funded : Funded s
  denom : ∀ owner d pos, s.positions.get (positionKey A owner d) = some pos →
    validateDenom d = true

section Steps
variable {A : App} {ctx : Ctx A} {s t : State} {owner : AccAddress} {d : String}

theorem Charged.rebooked {c r : ℤ} (hs : Solvent A s) (h : Charged ctx s t owner d c r) :
    ∃ entry, Rebooked A s t owner d c entry := by
  obtain ⟨v, w, hv, -, hw, hpos⟩ := h.position
  obtain ⟨total, htotal, hlocked⟩ := h.counter
  obtain ⟨howner, hdenom⟩ := hs.keyed.positionOr ctx owner d
  obtain ⟨hamount, -, hshare⟩ := hs.positionOr ctx owner d
  refine ⟨some { positionOr ctx s owner d with amount := v, mintedZYTD := w }, hpos, ?_, ?_, ?_, ?_,
    h.holding⟩
  · rintro pos ⟨⟩
    exact ⟨howner, hdenom⟩
  · rintro pos ⟨⟩
    have hc := h.deposit_nonneg
    exact ⟨by show 0 ≤ v.val; omega, hw⟩
  · rw [hshare, ← hv]
    simp [amountOf, hdenom]
  · exact totalLocked_change htotal hlocked

theorem Rebooked.sound {n : ℤ} {entry : Option CollateralPosition} (hs : Sound A s)
    (h : Rebooked A s t owner d n entry) (hf : Funded t) (hd : validateDenom d = true) :
    Sound A t := by
  refine ⟨Rebooked.solvent hs.solvent h, hf, ?_⟩
  intro o e pos hp
  rw [h.positions, Store.get_put] at hp
  split_ifs at hp with hk
  · obtain ⟨rfl, rfl⟩ := positionKey_inj hk
    exact hd
  · exact hs.denom o e pos hp

theorem Effect.sound {e : Event A} (hs : Sound A s) (he : VaultSilent e) (h : Effect e s t) :
    Sound A t := by
  cases h with
  | quiet frame =>
      rw [frame]
      exact ⟨⟨hs.solvent.keyed, hs.solvent.nonneg, hs.solvent.counted, hs.solvent.covered⟩, hs.funded,
        hs.denom⟩
  | deposited ctx owner d n signed positive done =>
      have howner : owner ≠ vault A := fun h => he (h ▸ signed)
      obtain ⟨_, -, hr⟩ := Deposited.rebooked hs.solvent howner done
      have hf := done.paid.funded hs.funded done.nonneg (by rw [done.frame])
      exact Rebooked.sound hs hr hf done.denom
  | withdrawn owner d n pos signed positive found debtFree done =>
      have howner : owner ≠ vault A := fun h => he (h ▸ signed)
      obtain ⟨_, -, hr⟩ := Withdrawn.rebooked hs.solvent howner found done
      have hf := done.paid.funded hs.funded done.nonneg (by rw [done.frame])
      exact Rebooked.sound hs hr hf done.denom
  | minted ctx req terms signed deposit debt done =>
      obtain ⟨_, hr⟩ := Charged.rebooked hs.solvent done.toCharged
      exact Rebooked.sound hs hr (done.funded hs.funded) done.denom

end Steps

theorem genesis_sound (A : App) (b : BankGenesis) : Sound A (genesis A b) := by
  rw [genesis_eq]
  refine ⟨solvent_of_empty rfl rfl fun d => (b.backed d).nonneg (vault A), b.funded, ?_⟩
  intro owner d pos h
  simp [BankGenesis.blank] at h

/-- The books and the ledgers hold together along every run. -/
theorem run_sound (A : App) (b : BankGenesis) (events : List (Event A))
    (hsilent : ∀ e ∈ events, VaultSilent e) : Sound A (run step (genesis A b) events) := by
  have hboth := run_invariant (fun s => Ledgers A (genesis A b) s ∧ Sound A s) VaultSilent
    (fun s e he hs => ⟨step_ledgers hs.1 e, Effect.sound hs.2 he (step_effect hs.1 e)⟩) events _
    ⟨genesis_ledgers A b, genesis_sound A b⟩ hsilent
  exact hboth.2

section Unlocking
variable {A : App} {s : State} {owner : AccAddress} {d : String} {n : SdkInt}
variable {pos : CollateralPosition}

/-- The vault can pay out any part of a position. -/
theorem vault_pays (hs : Sound A s) (ctx : Ctx A) (hunblocked : A.blockedAddr owner = false)
    (hp : s.positions.get (positionKey A owner d) = some pos) (hn : 0 < n.val)
    (hle : n.val ≤ pos.amount.val) :
    ∃ t, sendCoinsFromModuleToAccount ctx vaultName owner (coinsOf d n) s = .ok () t := by
  have hd := hs.denom owner d pos hp
  have hvault := ne_vault hunblocked
  have hcount := hs.solvent.amount_le hp
  have hcover := hs.solvent.covered d
  have hspend : n.val ≤ spendable ctx s (vault A) d := by
    have hlocked : ctx.lockedCoins (vault A) d = .zero := ctx.lockedCoins_module _ vaultName_mem d
    unfold spendable
    rw [hlocked, SdkInt.zero_val]
    omega
  have hroom : s.held d owner + n.val < intBound := by
    have htwo := (hs.funded d).add_le hvault
    have hsupply := (s.supply d).lt_bound
    omega
  exact sendCoinsFromModuleToAccount_returns (getModuleAddress_vault A) hunblocked
    (sendCoins_returns hd hn hspend hvault.symm ((hs.funded d).nonneg owner) hroom)

theorem releaseCollateral_returns (hs : Sound A s) (ctx : Ctx A)
    (hunblocked : A.blockedAddr owner = false)
    (hp : s.positions.get (positionKey A owner d) = some pos) (hn : 0 < n.val)
    (hle : n.val ≤ pos.amount.val) :
    ∃ total t, releaseCollateral ctx owner d n pos s = .ok total t := by
  obtain ⟨m, hsend⟩ := vault_pays hs ctx hunblocked hp hn hle
  have hd := hs.denom owner d pos hp
  obtain ⟨howner, hdenom⟩ := hs.solvent.keyed.at hp
  obtain ⟨-, hsent⟩ := sendCoinsFromModuleToAccount_sent (getModuleAddress_vault A) hd hn.le hsend
  have hlocked : totalLocked m d = totalLocked s d := by rw [hsent.frame]; rfl
  have hcount := hs.solvent.amount_le hp
  obtain ⟨left, hleft⟩ := SdkInt.sub_returns hn.le hle
  obtain ⟨total, htotal⟩ := SdkInt.sub_returns hn.le (hle.trans hcount)
  simp only [releaseCollateral, getTotalLocked, bind_ok, require_ok, liftM_ok, newCoinsOf_ok,
    mapErr_ok, gets_ok, Bool.not_eq_true', SdkInt.gt_eq_false]
  exact ⟨total, _, (), s, ⟨hle, rfl⟩, _, s, ⟨⟨hd, hn.le, rfl⟩, rfl⟩, (), m, hsend, left, m,
    ⟨hleft, rfl⟩, (), _, (putReduced_ok { pos with amount := left } howner hdenom).mpr rfl, _, _,
    ⟨hlocked, rfl⟩, htotal, rfl⟩

theorem unlockCollateral_returns (hs : Sound A s) (ctx : Ctx A)
    (hunblocked : A.blockedAddr owner = false)
    (hp : s.positions.get (positionKey A owner d) = some pos) (hfree : pos.mintedZYTD.val = 0)
    (hn : 0 < n.val) (hle : n.val ≤ pos.amount.val) :
    ∃ t, unlockCollateral ctx owner d n s = .ok () t := by
  obtain ⟨total, m, hrel⟩ := releaseCollateral_returns hs ctx hunblocked hp hn hle
  simp only [unlockCollateral, unlockAfterGuard, setTotalLocked, getPosition, bind_ok, lookup_ok,
    require_ok, modifyStore_ok, Bool.not_eq_true', SdkInt.isPositive_eq_false]
  exact ⟨_, pos, s, ⟨hp, rfl⟩, (), s, ⟨hfree.le, rfl⟩, total, m, hrel, rfl⟩

/-- So the message passes its validation and its handler. -/
theorem unlock_exec_returns (hs : Sound A s) (ctx : Ctx A) {msg : MsgUnlockCollateral}
    (howner : A.accAddressFromBech32 msg.owner = .ok owner)
    (hunblocked : A.blockedAddr owner = false) (hmsg : msg.amount = some n)
    (hp : s.positions.get (positionKey A owner msg.ibcDenom) = some pos)
    (hfree : pos.mintedZYTD.val = 0) (hn : 0 < n.val) (hle : n.val ≤ pos.amount.val) :
    ∃ t, (Event.unlock ctx msg).exec s = .ok () t ∧
      unlockCollateral ctx owner msg.ibcDenom n s = .ok () t := by
  obtain ⟨t, ht⟩ := unlockCollateral_returns hs ctx hunblocked hp hfree hn hle
  have hdenom : msg.ibcDenom ≠ "" := by
    intro hempty
    have hd := hs.denom owner msg.ibcDenom pos hp
    rw [hempty] at hd
    exact absurd hd (by decide)
  obtain ⟨left, hleft⟩ := SdkInt.sub_returns hn.le hle
  refine ⟨t, handled_ok.mpr ⟨(), s, ⟨msg.owner, msg.ibcDenom, n, left.clampNegative⟩,
    validateFields_ok.mpr ⟨⟨owner, howner⟩, hdenom, ⟨n, hmsg, hn⟩, rfl⟩, ?_⟩, ht⟩
  simp only [msgUnlockCollateral, deref, bind_ok, ownerAddress_ok, liftM_ok, orPanic_ok, getPosition,
    lookup_ok, pure_ok]
  exact ⟨owner, s, ⟨howner, rfl⟩, pos, s, ⟨hp, rfl⟩, n, s, ⟨hmsg, rfl⟩, (), t, ht, left, t,
    ⟨hleft, rfl⟩, rfl, rfl⟩

end Unlocking

/-- After any run of messages and stored prices, the owner of a position
without debt can unlock any part of it: the message returns, the coins move from
the vault to the owner, the counter follows, and the position shrinks by the
amount and is gone exactly when nothing is left. -/
theorem debt_free_withdraws (A : App) (b : BankGenesis) (events : List (Event A))
    (hsilent : ∀ e ∈ events, VaultSilent e) (ctx : Ctx A) (msg : MsgUnlockCollateral)
    (owner : AccAddress) (howner : A.accAddressFromBech32 msg.owner = .ok owner)
    (hunblocked : A.blockedAddr owner = false) (pos : CollateralPosition)
    (hpos : (run step (genesis A b) events).positions.get (positionKey A owner msg.ibcDenom) =
      some pos)
    (hfree : pos.mintedZYTD.val = 0) (n : SdkInt) (hmsg : msg.amount = some n) (hn : 0 < n.val)
    (hle : n.val ≤ pos.amount.val) :
    ∃ t, (Event.unlock ctx msg).exec (run step (genesis A b) events) = .ok () t ∧
      t.held msg.ibcDenom owner =
        (run step (genesis A b) events).held msg.ibcDenom owner + n.val ∧
      t.held msg.ibcDenom (vault A) =
        (run step (genesis A b) events).held msg.ibcDenom (vault A) - n.val ∧
      (totalLocked t msg.ibcDenom).val =
        (totalLocked (run step (genesis A b) events) msg.ibcDenom).val - n.val ∧
      (t.positions.get (positionKey A owner msg.ibcDenom) = none ↔ n.val = pos.amount.val) ∧
      ∀ pos', t.positions.get (positionKey A owner msg.ibcDenom) = some pos' →
        pos'.amount.val = pos.amount.val - n.val := by
  have hs := run_sound A b events hsilent
  obtain ⟨t, hexec, hunlock⟩ := unlock_exec_returns hs ctx howner hunblocked hmsg hpos hfree hn hle
  obtain ⟨pos₀, hpos₀, -, hw⟩ := unlockCollateral_ok hs.solvent.keyed hunlock
  obtain rfl : pos = pos₀ := Option.some.inj (hpos.symm.trans hpos₀)
  have hvault := ne_vault hunblocked
  obtain ⟨v, hv, hr⟩ := Withdrawn.rebooked hs.solvent hvault hpos hw
  have hentry : t.positions.get (positionKey A owner msg.ibcDenom) =
      if v.val = 0 then none else some { pos with amount := v } := by
    rw [hr.positions, Store.get_put, if_pos rfl]
  refine ⟨t, hexec, ?_, ?_, ?_, ?_, ?_⟩
  · rw [hw.paid.held_eq, if_pos rfl, if_pos rfl, if_neg hvault, sub_zero]
  · rw [hr.holding, if_pos rfl, sub_eq_add_neg]
  · rw [hr.counter, if_pos rfl, sub_eq_add_neg]
  · rw [hentry]
    split_ifs with hz
    · simp only [true_iff]
      omega
    · simp only [false_iff]
      omega
  · intro pos' hpos'
    rw [hentry] at hpos'
    split_ifs at hpos' with hz
    rw [← Option.some.inj hpos']
    exact hv

/-- `alice` locks 1000. -/
def aliceLocks : List (Event devnet) :=
  [.lock block ⟨devnet.text alice, "uzytc", some (.newInt 1000)⟩]

def aliceDeposit : CollateralPosition :=
  ⟨devnet.text alice, "uzytc", .newInt 1000, 1700000000, .zero⟩

theorem aliceLocks_position : (run step (genesis devnet treasury) aliceLocks).positions.get
    (positionKey devnet alice "uzytc") = some aliceDeposit := by
  decide +kernel

theorem aliceLocks_silent : ∀ e ∈ aliceLocks, VaultSilent e := by
  intro e he
  simp only [aliceLocks, List.mem_singleton] at he
  subst he
  simp only [VaultSilent, Event.signer, App.accAddressFromBech32_text, Except.toOption, ne_eq,
    Option.some.injEq]
  exact ne_vault alice_unblocked

/-- And may take 400 of it back. -/
theorem debt_free_withdraws_devnet :
    ∃ t, (Event.unlock block ⟨devnet.text alice, "uzytc", some (.newInt 400)⟩).exec
        (run step (genesis devnet treasury) aliceLocks) = .ok () t ∧
      t.held "uzytc" alice = (run step (genesis devnet treasury) aliceLocks).held "uzytc" alice + 400 :=
  let ⟨t, hexec, hheld, _⟩ := debt_free_withdraws devnet treasury aliceLocks aliceLocks_silent block
    ⟨devnet.text alice, "uzytc", some (.newInt 400)⟩ alice (devnet.accAddressFromBech32_text alice)
    alice_unblocked aliceDeposit aliceLocks_position rfl (.newInt 400) rfl (by decide) (by decide)
  ⟨t, hexec, hheld⟩

end Zytherion.Withdrawals
