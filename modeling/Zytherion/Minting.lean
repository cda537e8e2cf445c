import Zytherion.Withdrawals

/-!
# When a mint returns

An accepted request of a sender who can pay for it runs to its end as long as
the coins it issues still fit the supply and the sender mints against the
denomination for the first time. What could fail on the way, a missing balance,
an account without room or a counter that overflows, is excluded by the
invariants of the vault and the bank.
-/
namespace Zytherion.Minting

open GoCall KeyedStore SdkMath HalfEven Application ChainState Bank CollateralKeeper StablecoinKeeper
open CollateralMsgServer StablecoinMsgServer Ledger VaultSolvency Withdrawals

section Returns
variable {A : App} {s : State} {owner : AccAddress} {d : String} {n : SdkInt}
variable {asset : CollateralAsset}

theorem positionOr_le (hs : Solvent A s) (ctx : Ctx A) (owner : AccAddress) (d : String) :
    (positionOr ctx s owner d).amount.val ≤ (totalLocked s d).val := by
  unfold positionOr
  cases hp : s.positions.get (positionKey A owner d) with
  | none =>
      rw [hs.counted d]
      exact Store.total_nonneg (amountOf_nonneg hs.nonneg d)
  | some pos => exact hs.amount_le hp

theorem lockCollateral_returns (hs : Sound A s) (ctx : Ctx A)
    (hasset : s.assets.get (assetKey d) = some asset) (hactive : asset.isActive = true)
    (hd : validateDenom d = true) (hfree : A.blockedAddr owner = false) (hn : 0 < n.val)
    (hfunds : n.val ≤ spendable ctx s owner d) :
    ∃ t, lockCollateral ctx owner d n s = .ok () t := by
  have hlock := ctx.lockedCoins_nonneg owner d
  have hheld : n.val ≤ s.held d owner := by
    unfold spendable at hfunds
    omega
  -- both balances together are backed by the supply, so the vault has room
  have hroom : s.held d (vault A) + n.val < intBound := by
    have htwo := (hs.funded d).add_le (ne_vault hfree)
    have hsupply := (s.supply d).lt_bound
    omega
  obtain ⟨m, hsend⟩ := sendCoinsFromAccountToModule_returns (getModuleAddress_vault A)
    (sendCoins_returns hd hn hfunds (ne_vault hfree) ((hs.funded d).nonneg _) hroom)
  have hsent := sendCoinsFromAccountToModule_sent (getModuleAddress_vault A) hd hn.le hsend
  have hfound : m.positions.get (positionKey A owner d) = s.positions.get (positionKey A owner d) := by
    rw [hsent.frame]
  have htotal : totalLocked m d = totalLocked s d := by
    rw [hsent.frame]
    rfl
  have hnonneg := (hs.solvent.positionOr ctx owner d).1
  have hle := positionOr_le hs.solvent ctx owner d
  have hcover := hs.solvent.covered d
  have hv : ((positionOr ctx s owner d).amount.val + n.val).natAbs < intBound := by omega
  have hw : ((totalLocked s d).val + n.val).natAbs < intBound := by omega
  simp only [lockCollateral, getCollateralAsset, getPosition, getTotalLocked, setTotalLocked,
    bind_ok, lookup_ok, require_ok, liftM_ok, newCoinsOf_ok, mapErr_ok, attempt_lookup_ok,
    SdkInt.add_ok, gets_ok, modifyStore_ok]
  exact ⟨_, asset, s, ⟨hasset, rfl⟩, (), s, ⟨hactive, rfl⟩, _, s, ⟨⟨hd, hn.le, rfl⟩, rfl⟩, (), m, hsend,
    _, m, ⟨hfound, rfl⟩, ⟨_, hv⟩, m, ⟨rfl, rfl⟩, (), _,
    (setPosition_ok { positionOr ctx s owner d with amount := ⟨_, hv⟩ }
      (hs.solvent.keyed.positionOr ctx owner d).1).mpr rfl,
    _, _, ⟨htotal, rfl⟩, ⟨_, hw⟩, _, ⟨rfl, rfl⟩, rfl⟩

/-- The stablecoin's account can be issued new coins and pass them on. -/
theorem issue_returns (hs : Funded s) (ctx : Ctx A) (hfree : A.blockedAddr owner = false)
    (hn : 0 < n.val) (hroom : (s.supply zytdDenom).val + n.val < intBound) :
    ∃ m t, mintCoins A stablecoinName (coinsOf zytdDenom n) s = .ok () m ∧
      sendCoinsFromModuleToAccount ctx stablecoinName owner (coinsOf zytdDenom n) m = .ok () t := by
  have hbefore := (hs zytdDenom).le (stablecoinAccount A)
  have hnonneg := (hs zytdDenom).nonneg (stablecoinAccount A)
  obtain ⟨m, hmint⟩ := mintCoins_returns zytdDenom_valid hn (getModuleAddress_stablecoin A)
    (by decide) hnonneg (by omega) (by omega) hroom
  have hiss := mintCoins_issued (getModuleAddress_stablecoin A) zytdDenom_valid hn.le hmint
  have hm := hiss.funded hs hn.le
  have hheld := hiss.held_eq zytdDenom (stablecoinAccount A)
  simp only [if_true] at hheld
  have hspend : n.val ≤ spendable ctx m (stablecoinAccount A) zytdDenom := by
    have hlocked : ctx.lockedCoins (stablecoinAccount A) zytdDenom = .zero :=
      ctx.lockedCoins_module _ stablecoinName_mem zytdDenom
    unfold spendable
    rw [hlocked, SdkInt.zero_val]
    omega
  have hreceive : m.held zytdDenom owner + n.val < intBound := by
    have htwo := (hm zytdDenom).add_le (ne_stablecoin hfree)
    have hsupply := (m.supply zytdDenom).lt_bound
    omega
  obtain ⟨t, hsend⟩ := sendCoinsFromModuleToAccount_returns (getModuleAddress_stablecoin A) hfree
    (sendCoins_returns zytdDenom_valid hn hspend (ne_stablecoin hfree).symm
      ((hm zytdDenom).nonneg owner) hreceive)
  exact ⟨m, t, hmint, hsend⟩

theorem updateMintedZYTD_returns (hk : Keyed A s) {pos : CollateralPosition}
    (hp : s.positions.get (positionKey A owner d) = some pos) (hdebt : 0 ≤ pos.mintedZYTD.val)
    (hn : 0 < n.val) (hroom : pos.mintedZYTD.val + n.val < intBound) :
    ∃ t, updateMintedZYTD A owner d n s = .ok () t := by
  have hv : (pos.mintedZYTD.val + n.val).natAbs < intBound := by omega
  simp only [updateMintedZYTD, getPosition, bind_ok, lookup_ok, liftM_ok, SdkInt.add_ok, require_ok,
    Bool.not_eq_true', SdkInt.isNegative_eq_false]
  exact ⟨_, pos, s, ⟨hp, rfl⟩, ⟨_, hv⟩, s, ⟨rfl, rfl⟩, (), s, ⟨add_nonneg hdebt hn.le, rfl⟩,
    (setPosition_ok { pos with mintedZYTD := ⟨_, hv⟩ } (hk.at hp).1).mpr rfl⟩

end Returns

/-- A first mint whose sender can pay for it and whose coins fit the supply. -/
structure Payable {A : App} (ctx : Ctx A) (req : MsgMintZYTD) (s : State) (terms : MintTerms) :
    Prop where
  accepted : mintTerms ctx req s = .ok terms s
  denom : validateDenom req.ibcDenom = true
  deposit : 0 < terms.amount.val
  debt : 0 < terms.requested.val
  unblocked : A.blockedAddr terms.sender = false
  funds : terms.amount.val ≤ spendable ctx s terms.sender req.ibcDenom
  supplyRoom : (s.supply zytdDenom).val + terms.requested.val < intBound
  debtRoom : (positionOr ctx s terms.sender req.ibcDenom).mintedZYTD.val + terms.requested.val < intBound
  first : s.records.get (mintRecordKey A terms.sender req.ibcDenom) = none
  counterRoom : ((totalSupplyOf s).val + terms.requested.val).natAbs < intBound

section Mint
variable {A : App} {ctx : Ctx A} {s : State} {req : MsgMintZYTD} {terms : MintTerms}

theorem lockAndIssue_returns (hs : Sound A s) (h : Payable ctx req s terms) :
    ∃ t, lockAndIssue ctx req.ibcDenom terms s = .ok () t := by
  obtain ⟨-, -, -, -, asset, _, _, hasset, hactive, -⟩ := mintTerms_ok h.accepted
  obtain ⟨m₁, hlock⟩ := lockCollateral_returns hs ctx hasset hactive h.denom h.unblocked h.deposit
    h.funds
  have hdep := lockCollateral_ok hs.solvent.keyed hlock
  have hsupply : m₁.supply = s.supply := by rw [hdep.frame]
  obtain ⟨m₂, m₃, hmint, hsend⟩ := issue_returns (hdep.paid.funded hs.funded hdep.nonneg hsupply) ctx
    h.unblocked h.debt (by rw [hsupply]; exact h.supplyRoom)
  have hiss := mintCoins_issued (getModuleAddress_stablecoin A) zytdDenom_valid h.debt.le hmint
  obtain ⟨-, hsent⟩ := sendCoinsFromModuleToAccount_sent (getModuleAddress_stablecoin A)
    zytdDenom_valid h.debt.le hsend
  obtain ⟨v, -, hpos⟩ := hdep.position
  have hpos₃ : m₃.positions = m₁.positions := by rw [hsent.frame, hiss.frame]
  have hfound : m₃.positions.get (positionKey A terms.sender req.ibcDenom) =
      some { positionOr ctx s terms.sender req.ibcDenom with amount := v } := by
    rw [hpos₃, hpos, Store.get_set_self]
  have hk : Keyed A m₃ := hs.solvent.keyed.put
    (some { positionOr ctx s terms.sender req.ibcDenom with amount := v })
    (by rintro pos ⟨⟩; exact hs.solvent.keyed.positionOr ctx _ _) (hpos₃.trans hpos)
  obtain ⟨t, hupdate⟩ := updateMintedZYTD_returns hk hfound
    (hs.solvent.positionOr ctx terms.sender req.ibcDenom).2.1 h.debt h.debtRoom
  simp only [lockAndIssue, bind_ok, mapErr_ok, liftM_ok, newCoinsOf_ok]
  exact ⟨t, (), m₁, hlock, _, m₁, ⟨⟨zytdDenom_valid, h.debt.le, rfl⟩, rfl⟩, (), m₂, hmint, (), m₃,
    hsend, hupdate⟩

theorem recordMint_returns (hfirst : s.records.get (mintRecordKey A terms.sender req.ibcDenom) = none)
    (hroom : ((totalSupplyOf s).val + terms.requested.val).natAbs < intBound) :
    ∃ t, recordMint ctx req terms s = .ok () t := by
  simp only [recordMint, bind_ok, getMintRecord, attempt_lookup_ok, liftM_ok, getTotalSupply,
    setTotalSupply, setMintRecord, gets_ok, SdkInt.add_ok, modifyStore_ok]
  exact ⟨_, none, s, ⟨hfirst, rfl⟩, _, s, ⟨rfl, rfl⟩, (), _, rfl, _, _, ⟨rfl, rfl⟩, ⟨_, hroom⟩, _,
    ⟨rfl, rfl⟩, rfl⟩

/-- Such a mint returns the amount it was asked for. -/
theorem mintZYTD_returns (hs : Sound A s) (h : Payable ctx req s terms)
    (husd : 0 ≤ terms.collateralUSD.raw) (hbound : terms.collateralUSD.raw < decBound) :
    ∃ t, mintZYTD ctx req s = .ok terms.requested t := by
  obtain ⟨m, hissue⟩ := lockAndIssue_returns hs h
  obtain ⟨-, hframe⟩ := lockAndIssue_ok hs.solvent.keyed hissue
  have hrecords : m.records = s.records := by rw [hframe]
  have htotal : totalSupplyOf m = totalSupplyOf s := by rw [hframe]; rfl
  obtain ⟨t, hrecord⟩ : ∃ t, recordMint ctx req terms m = .ok () t :=
    recordMint_returns (by rw [hrecords]; exact h.first) (by rw [htotal]; exact h.counterRoom)
  have hone : precision ≤ (Dec.ofInt terms.requested).raw :=
    le_mul_of_one_le_left precision_pos.le h.debt
  obtain ⟨ratio, hratio, -⟩ := Dec.quo_returns husd (lt_of_lt_of_le precision_pos hone)
    (mul_le_mul_of_nonneg_left hone husd) hbound
  simp only [mintZYTD, bind_ok, liftM_ok, pure_ok]
  exact ⟨t, terms, s, h.accepted, (), m, hissue, (), t, hrecord, ratio, t, ⟨hratio, rfl⟩, rfl, rfl⟩

end Mint

end Zytherion.Minting
