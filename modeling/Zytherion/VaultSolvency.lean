import Zytherion.CollateralKeeper
import Zytherion.Devnet

/-!
# The vault's books

The counter of a denomination equals the sum of the positions in it, and the
vault account holds at least that much. Every keeper call rewrites one entry of
the position store and moves the counter and the vault's balance by what the
entry's amount changed; `Rebooked` states that once, and one lemma carries the
books over any such change.
-/
namespace Zytherion.VaultSolvency

open GoCall KeyedStore SdkMath Application ChainState Bank CollateralKeeper Ledger Devnet

/-- What a position counts towards a denomination. -/
def amountOf (d : String) (pos : CollateralPosition) : ℤ :=
  if pos.ibcDenom = d then pos.amount.val else 0

def lockedSum (s : State) (d : String) : ℤ := Store.total (amountOf d) s.positions

structure Solvent (A : App) (s : State) : Prop where
  keyed : Keyed A s
  nonneg : ∀ k pos, s.positions.get k = some pos → 0 ≤ pos.amount.val ∧ 0 ≤ pos.mintedZYTD.val
  counted : ∀ d, (totalLocked s d).val = lockedSum s d
  covered : ∀ d, (totalLocked s d).val ≤ s.held d (vault A)

/-- The entry of `owner` and `d` became `entry`, whose amount differs by `n`;
the counter and the vault's balance of `d` moved by the same. -/
structure Rebooked (A : App) (s t : State) (owner : AccAddress) (d : String) (n : ℤ)
    (entry : Option CollateralPosition) : Prop where
  positions : t.positions = s.positions.put (positionKey A owner d) entry
  named : ∀ pos, entry = some pos →
    A.accAddressFromBech32 pos.owner = .ok owner ∧ pos.ibcDenom = d
  nonneg : ∀ pos, entry = some pos → 0 ≤ pos.amount.val ∧ 0 ≤ pos.mintedZYTD.val
  amount : Store.share (amountOf d) entry =
    Store.share (amountOf d) (s.positions.get (positionKey A owner d)) + n
  counter : ∀ e, (totalLocked t e).val = (totalLocked s e).val + if e = d then n else 0
  holding : ∀ e, t.held e (vault A) = s.held e (vault A) + if e = d then n else 0

section Steps
variable {A : App} {ctx : Ctx A} {s t : State} {owner : AccAddress} {d e : String} {n : ℤ}
variable {pos : CollateralPosition} {entry : Option CollateralPosition}

theorem totalLocked_set {w : SdkInt} (h : t.locked = s.locked.set (lockedKey d) w) (e : String) :
    totalLocked t e = if e = d then w else totalLocked s e := by
  unfold totalLocked
  rw [h, Store.get_set]
  by_cases he : e = d
  · simp [he]
  · have hk : lockedKey e ≠ lockedKey d := fun hk => he (lockedKey_inj hk)
    simp [he, hk]

/-- A counter that was changed by `n` and written back. -/
theorem totalLocked_change {w : SdkInt} (hw : w.val = (totalLocked s d).val + n)
    (h : t.locked = s.locked.set (lockedKey d) w) (e : String) :
    (totalLocked t e).val = (totalLocked s e).val + if e = d then n else 0 := by
  rw [totalLocked_set h]
  split_ifs with he
  · rw [he, hw]
  · rw [add_zero]

theorem amountOf_nonneg
    (hnonneg : ∀ k pos, s.positions.get k = some pos → 0 ≤ pos.amount.val ∧ 0 ≤ pos.mintedZYTD.val)
    (d k : String) (pos : CollateralPosition) (hp : s.positions.get k = some pos) :
    0 ≤ amountOf d pos := by
  unfold amountOf
  split_ifs
  · exact (hnonneg k pos hp).1
  · exact le_refl 0

/-- A single position is part of the sum of its denomination. -/
theorem amount_le_lockedSum (hk : Keyed A s)
    (hnonneg : ∀ k pos, s.positions.get k = some pos → 0 ≤ pos.amount.val ∧ 0 ≤ pos.mintedZYTD.val)
    (hp : s.positions.get (positionKey A owner d) = some pos) :
    pos.amount.val ≤ lockedSum s d := by
  have hle := Store.le_total (f := amountOf d) (amountOf_nonneg hnonneg d) hp
  simpa [amountOf, (hk.at hp).2, lockedSum] using hle

theorem Solvent.amount_le (hs : Solvent A s)
    (hp : s.positions.get (positionKey A owner d) = some pos) :
    pos.amount.val ≤ (totalLocked s d).val := by
  rw [hs.counted d]
  exact amount_le_lockedSum hs.keyed hs.nonneg hp

/-- What another denomination counts does not see the entry. -/
theorem share_other (hk : Keyed A s) (he : e ≠ d) :
    Store.share (amountOf e) (s.positions.get (positionKey A owner d)) = 0 := by
  cases hp : s.positions.get (positionKey A owner d) with
  | none => rfl
  | some pos => simp [amountOf, (hk.at hp).2, he.symm]

/-- One entry that is rewritten moves the sum of its denomination. -/
theorem lockedSum_put (hk : Keyed A s) (hnamed : ∀ pos, entry = some pos → pos.ibcDenom = d)
    (hpositions : t.positions = s.positions.put (positionKey A owner d) entry)
    (hamount : Store.share (amountOf d) entry =
      Store.share (amountOf d) (s.positions.get (positionKey A owner d)) + n) (e : String) :
    lockedSum t e = lockedSum s e + if e = d then n else 0 := by
  have hsum := Store.total_put (amountOf e) s.positions (positionKey A owner d) entry
  simp only [lockedSum, hpositions, hsum]
  by_cases he : e = d
  · subst he
    simp only [if_true]
    omega
  · have hother : Store.share (amountOf e) entry = 0 := by
      cases entry with
      | none => rfl
      | some pos => simp [amountOf, hnamed pos rfl, Ne.symm he]
    simp only [he, if_false, hother, share_other hk he]
    omega

theorem Rebooked.solvent (hs : Solvent A s) (h : Rebooked A s t owner d n entry) :
    Solvent A t := by
  refine ⟨hs.keyed.put entry h.named h.positions, ?_, ?_, ?_⟩
  · intro k pos hp
    rw [h.positions, Store.get_put] at hp
    split_ifs at hp with hk
    · exact h.nonneg pos hp
    · exact hs.nonneg k pos hp
  · intro e
    rw [h.counter e, hs.counted e,
      lockedSum_put hs.keyed (fun pos hpos => (h.named pos hpos).2) h.positions h.amount]
  · intro e
    have hc := hs.covered e
    rw [h.counter e, h.holding e]
    omega

/-- What a deposit starts from, stored or fresh, counts as it reads. -/
theorem share_positionOr (hk : Keyed A s) (ctx : Ctx A) (owner : AccAddress) (d : String) :
    Store.share (amountOf d) (s.positions.get (positionKey A owner d)) =
      (positionOr ctx s owner d).amount.val := by
  unfold positionOr
  cases hp : s.positions.get (positionKey A owner d) with
  | none => rfl
  | some pos => simp [amountOf, (hk.at hp).2]

/-- A position that is deleted when nothing is left counts what is left. -/
theorem share_remaining (v : SdkInt) (hdenom : pos.ibcDenom = d) :
    Store.share (amountOf d) (if v.val = 0 then none else some { pos with amount := v }) =
      v.val := by
  split_ifs with hz
  · exact hz.symm
  · simp [amountOf, hdenom]

theorem Solvent.positionOr (hs : Solvent A s) (ctx : Ctx A) (owner : AccAddress) (d : String) :
    0 ≤ (positionOr ctx s owner d).amount.val ∧
      0 ≤ (CollateralKeeper.positionOr ctx s owner d).mintedZYTD.val ∧
      Store.share (amountOf d) (s.positions.get (positionKey A owner d)) =
        (CollateralKeeper.positionOr ctx s owner d).amount.val := by
  refine and_assoc.mp ⟨?_, share_positionOr hs.keyed ctx owner d⟩
  unfold CollateralKeeper.positionOr
  cases hp : s.positions.get (positionKey A owner d) with
  | none => exact ⟨le_refl 0, le_refl 0⟩
  | some pos => exact hs.nonneg _ _ hp

theorem Deposited.rebooked (hs : Solvent A s) (ho : owner ≠ vault A)
    (h : Deposited ctx s t owner d n) : ∃ v : SdkInt,
      v.val = (positionOr ctx s owner d).amount.val + n ∧
      Rebooked A s t owner d n (some { positionOr ctx s owner d with amount := v }) := by
  obtain ⟨v, hv, hpos⟩ := h.position
  obtain ⟨w, hw, hlocked⟩ := h.counter
  obtain ⟨howner, hdenom⟩ := hs.keyed.positionOr ctx owner d
  obtain ⟨hamount, hdebt, hshare⟩ := hs.positionOr ctx owner d
  refine ⟨v, hv, hpos, ?_, ?_, ?_, ?_, ?_⟩
  · rintro pos ⟨⟩
    exact ⟨howner, hdenom⟩
  · rintro pos ⟨⟩
    have hn := h.nonneg
    exact ⟨by show 0 ≤ v.val; omega, hdebt⟩
  · rw [hshare, ← hv]
    simp [amountOf, hdenom]
  · exact totalLocked_change hw hlocked
  · intro e
    rw [h.paid.held_eq]
    simp [ho.symm]

theorem Withdrawn.rebooked (hs : Solvent A s) (ho : owner ≠ vault A)
    (hp : s.positions.get (positionKey A owner d) = some pos)
    (h : Withdrawn A s t owner d n pos) : ∃ v : SdkInt, v.val = pos.amount.val - n ∧
      Rebooked A s t owner d (-n) (if v.val = 0 then none else some { pos with amount := v }) := by
  obtain ⟨v, hv, hpos⟩ := h.position
  obtain ⟨w, hw, hlocked⟩ := h.counter
  obtain ⟨howner, hdenom⟩ := hs.keyed.at hp
  have hle := h.le_amount
  have hcount := hs.amount_le hp
  have hentry : ∀ pos', (if v.val = 0 then none else some { pos with amount := v }) = some pos' →
      v.val ≠ 0 ∧ { pos with amount := v } = pos' := by
    intro pos' he
    split_ifs at he with hz
    exact ⟨hz, Option.some.inj he⟩
  refine ⟨v, hv, ?_, ?_, ?_, ?_, ?_, ?_⟩
  · rw [hpos]
    split_ifs <;> rfl
  · intro pos' he
    obtain ⟨-, rfl⟩ := hentry pos' he
    exact ⟨howner, hdenom⟩
  · intro pos' he
    obtain ⟨-, rfl⟩ := hentry pos' he
    exact ⟨by show 0 ≤ v.val; omega, (hs.nonneg _ _ hp).2⟩
  · rw [hp, Store.share_some, share_remaining v hdenom, amountOf, if_pos hdenom]
    omega
  · exact totalLocked_change (by omega) hlocked
  · intro e
    rw [h.paid.held_eq]
    simp [ho.symm]

theorem Drawn.rebooked (hs : Solvent A s) (h : Drawn A s t owner d n pos) : ∃ v : SdkInt,
    v.val = pos.mintedZYTD.val + n ∧
      Rebooked A s t owner d 0 (some { pos with mintedZYTD := v }) := by
  obtain ⟨v, hv, hv0, hpos⟩ := h.debt
  obtain ⟨howner, hdenom⟩ := hs.keyed.at h.found
  have hlocked : t.locked = s.locked := by rw [h.frame]
  have hbal : t.balances = s.balances := by rw [h.frame]
  refine ⟨v, hv, hpos, ?_, ?_, ?_, ?_, ?_⟩
  · rintro pos' ⟨⟩
    exact ⟨howner, hdenom⟩
  · rintro pos' ⟨⟩
    exact ⟨(hs.nonneg _ _ h.found).1, hv0⟩
  · rw [h.found, Store.share_some, Store.share_some, add_zero]
    rfl
  · intro e
    simp [totalLocked, hlocked]
  · intro e
    simp [State.held, hbal]

end Steps

/-- The books of a vault nobody has used. -/
theorem solvent_of_empty {A : App} {s : State} (hp : s.positions = ∅) (hl : s.locked = ∅)
    (hv : ∀ d, 0 ≤ s.held d (vault A)) : Solvent A s := by
  have htotal : ∀ d, totalLocked s d = .zero := by
    intro d
    simp [totalLocked, hl]
  refine ⟨?_, ?_, ?_, ?_⟩
  · intro k pos h
    simp [hp] at h
  · intro k pos h
    simp [hp] at h
  · intro d
    simp [htotal, lockedSum, hp]
  · intro d
    rw [htotal]
    exact hv d

/-- The keeper calls other modules and the message server make. -/
inductive KeeperCall (A : App) where
  | lock (ctx : Ctx A) (owner : AccAddress) (ibcDenom : String) (amount : SdkInt)
  | unlock (ctx : Ctx A) (owner : AccAddress) (ibcDenom : String) (amount : SdkInt)
  | updateMinted (owner : AccAddress) (ibcDenom : String) (delta : SdkInt)

section Runs
variable {A : App}

def KeeperCall.owner : KeeperCall A → AccAddress
  | lock _ owner _ _ => owner
  | unlock _ owner _ _ => owner
  | updateMinted owner _ _ => owner

def KeeperCall.exec : KeeperCall A → Exec Unit
  | lock ctx owner d n => lockCollateral ctx owner d n
  | unlock ctx owner d n => unlockCollateral ctx owner d n
  | updateMinted owner d delta => updateMintedZYTD A owner d delta

/-- An erroring or panicking call is rolled back. -/
def keeperStep (s : State) (c : KeeperCall A) : State := commit c.exec s

theorem KeeperCall.rebooked {s t : State} {u : Unit} (hs : Solvent A s) (c : KeeperCall A)
    (hc : c.owner ≠ vault A) (h : c.exec s = .ok u t) :
    ∃ owner d n entry, Rebooked A s t owner d n entry := by
  cases c with
  | lock ctx owner d n =>
      obtain ⟨_, -, hr⟩ := Deposited.rebooked hs hc (lockCollateral_ok hs.keyed h)
      exact ⟨owner, d, _, _, hr⟩
  | unlock ctx owner d n =>
      obtain ⟨pos, hp, -, hw⟩ := unlockCollateral_ok hs.keyed h
      obtain ⟨_, -, hr⟩ := Withdrawn.rebooked hs hc hp hw
      exact ⟨owner, d, _, _, hr⟩
  | updateMinted owner d delta =>
      obtain ⟨pos, hdrawn⟩ := updateMintedZYTD_ok hs.keyed h
      obtain ⟨_, -, hr⟩ := Drawn.rebooked hs hdrawn
      exact ⟨owner, d, _, _, hr⟩

/-- The books of `t`, and the distance of balance and counter as in `s`. -/
def Kept (A : App) (s t : State) : Prop := Solvent A t ∧ ∀ d,
  t.held d (vault A) - (totalLocked t d).val = s.held d (vault A) - (totalLocked s d).val

theorem keeperStep_kept {s t : State} (c : KeeperCall A) (hc : c.owner ≠ vault A)
    (ht : Kept A s t) : Kept A s (keeperStep t c) := by
  apply commit_preserves (P := Kept A s) ht
  intro u r h
  obtain ⟨owner, d, n, entry, hr⟩ := c.rebooked ht.1 hc h
  refine ⟨hr.solvent ht.1, fun e => ?_⟩
  rw [hr.counter e, hr.holding e, ← ht.2 e]
  omega

/-- An unlock removes its position or leaves something in it. -/
theorem unlockCollateral_leaves {ctx : Ctx A} {s t : State} {owner : AccAddress} {d : String}
    {n : SdkInt} {u : Unit} (hs : Solvent A s) (h : unlockCollateral ctx owner d n s = .ok u t)
    {pos : CollateralPosition} (hp : t.positions.get (positionKey A owner d) = some pos) :
    0 < pos.amount.val := by
  obtain ⟨old, -, -, hw⟩ := unlockCollateral_ok hs.keyed h
  obtain ⟨v, hv, hpos⟩ := hw.position
  have hle := hw.le_amount
  rw [hpos] at hp
  split_ifs at hp with hz
  · simp at hp
  · rw [Store.get_set_self, Option.some.injEq] at hp
    subst hp
    show 0 < v.val
    omega

/-- The counter an unlock is about to write is not negative. -/
theorem releaseCollateral_nonneg {ctx : Ctx A} {s t : State} {owner : AccAddress} {d : String}
    {n newTotal : SdkInt} {pos : CollateralPosition} (hs : Solvent A s)
    (hp : s.positions.get (positionKey A owner d) = some pos)
    (h : releaseCollateral ctx owner d n pos s = .ok newTotal t) : 0 ≤ newTotal.val := by
  obtain ⟨htotal, hr, -⟩ := releaseCollateral_ok hs.keyed hp h
  have hle := hr.le_amount
  have hcount := hs.amount_le hp
  omega

/-- From solvent books, any sequence of keeper calls by owners other than the
vault keeps counter and positions equal, moves the vault's balance with the
counter, stores nothing negative and never reaches the clamp. -/
theorem vault_stays_solvent {s : State} (hs : Solvent A s) (calls : List (KeeperCall A))
    (hcalls : ∀ c ∈ calls, c.owner ≠ vault A) :
    (∀ d, (totalLocked (run keeperStep s calls) d).val = lockedSum (run keeperStep s calls) d) ∧
    (∀ d, (run keeperStep s calls).held d (vault A) - s.held d (vault A) =
      (totalLocked (run keeperStep s calls) d).val - (totalLocked s d).val) ∧
    (∀ k pos, (run keeperStep s calls).positions.get k = some pos →
      0 ≤ pos.amount.val ∧ 0 ≤ pos.mintedZYTD.val) ∧
    (∀ (ctx : Ctx A) owner d n u t, unlockCollateral ctx owner d n (run keeperStep s calls) = .ok u t →
      ∀ pos, t.positions.get (positionKey A owner d) = some pos → 0 < pos.amount.val) ∧
    (∀ (ctx : Ctx A) owner d n pos newTotal t,
      (run keeperStep s calls).positions.get (positionKey A owner d) = some pos →
      releaseCollateral ctx owner d n pos (run keeperStep s calls) = .ok newTotal t →
      0 ≤ newTotal.val) := by
  obtain ⟨ht, hdist⟩ : Kept A s (run keeperStep s calls) :=
    run_invariant (Kept A s) (fun c => c.owner ≠ vault A)
      (fun _ c hc ht => keeperStep_kept c hc ht) calls s ⟨hs, fun _ => rfl⟩ hcalls
  refine ⟨ht.counted, fun d => ?_, ht.nonneg, ?_, ?_⟩
  · have hd := hdist d
    omega
  · intro ctx owner d n u t h pos hp
    exact unlockCollateral_leaves ht h hp
  · intro ctx owner d n pos newTotal t hp h
    exact releaseCollateral_nonneg ht hp h

end Runs

/-- The development network with its own collateral whitelisted. -/
def openVault : State :=
  { treasury.blank with
    assets := (∅ : Store String CollateralAsset).set (assetKey "uzytc")
      ⟨"uzytc", "ZYTC", .newDecWithPrec 200 2, .newDecWithPrec 150 2, true⟩ }

/-- The first unlock meets the debt and is rolled back. -/
def aliceCalls : List (KeeperCall devnet) :=
  [.lock block alice "uzytc" (.newInt 600), .updateMinted alice "uzytc" (.newInt 50),
    .unlock block alice "uzytc" (.newInt 100), .updateMinted alice "uzytc" (.newInt (-50)),
    .unlock block alice "uzytc" (.newInt 100)]

theorem vault_stays_solvent_devnet :
    Solvent devnet openVault ∧ (∀ c ∈ aliceCalls, c.owner ≠ vault devnet) ∧
      (totalLocked (run keeperStep openVault aliceCalls) "uzytc").val = 500 ∧
      lockedSum (run keeperStep openVault aliceCalls) "uzytc" = 500 := by
  have hs : Solvent devnet openVault := solvent_of_empty rfl rfl fun d =>
    (treasury.backed d).nonneg (vault devnet)
  have hcalls : ∀ c ∈ aliceCalls, c.owner ≠ vault devnet := by
    intro c hc
    have halice : c.owner = alice := by
      simp only [aliceCalls, List.mem_cons, List.not_mem_nil, or_false] at hc
      rcases hc with rfl | rfl | rfl | rfl | rfl <;> rfl
    rw [halice]
    decide
  have htotal : (totalLocked (run keeperStep openVault aliceCalls) "uzytc").val = 500 := by
    decide +kernel
  exact ⟨hs, hcalls, htotal, ((vault_stays_solvent hs aliceCalls hcalls).1 "uzytc").symm.trans htotal⟩

end Zytherion.VaultSolvency
