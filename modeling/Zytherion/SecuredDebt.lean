import Zytherion.DebtLedgers
import Zytherion.Devnet

/-!
# Debt stays secured

Every step of a run is an operation of the abstract book, which lowers the
collateral of a line only when the line shows no debt. Read back at the stored
positions, a position with debt has collateral, is still there after the next
event, and has not lost any of it.
-/
namespace Zytherion.SecuredDebt

open GoCall KeyedStore SdkMath Application ChainState Bank CollateralKeeper StablecoinKeeper
open CollateralMsgServer StablecoinMsgServer Chain DebtBook DebtLedgers Devnet

/-- The messages of the collateral module. -/
def isVaultMessage {A : App} : Event A → Bool
  | .lock _ _ => true
  | .unlock _ _ => true
  | _ => false

section Lines
variable {A : App} {s t : State} {owner : AccAddress} {d : String}

/-- A line with debt is a stored position. -/
theorem found_of_debt (h : 0 < (bookOf A s (owner, d)).debt) :
    ∃ pos, s.positions.get (positionKey A owner d) = some pos := by
  cases hp : s.positions.get (positionKey A owner d) with
  | none => simp [bookOf, hp, lineOf] at h
  | some pos => exact ⟨pos, rfl⟩

/-- A permitted operation neither forgives debt nor releases what secures it. -/
theorem Refines.line_grows {op : Op (AccAddress × String)} (h : Refines A op s t)
    (hdebt : 0 < (bookOf A s (owner, d)).debt) :
    (bookOf A s (owner, d)).debt ≤ (bookOf A t (owner, d)).debt ∧
      (bookOf A s (owner, d)).amount ≤ (bookOf A t (owner, d)).amount := by
  have hdrawn := Op.drawnAt_nonneg h.allowed (owner, d)
  have hlocked := Op.lockedAt_nonneg h.allowed hdebt.ne'
  rw [h.book]
  exact ⟨by simpa [Op.apply] using hdrawn, by simpa [Op.apply] using hlocked⟩

end Lines

/-- Along every run from default genesis, by any accounts and with any prices, a
position with debt has collateral, is kept by the next event with at least as
much of it, and in particular loses none to a message of the vault. -/
theorem debt_stays_secured (A : App) (b : BankGenesis) (events : List (Event A)) (e : Event A)
    (k : String) (pos : CollateralPosition)
    (hpos : (run step (genesis A b) events).positions.get k = some pos)
    (hdebt : 0 < pos.mintedZYTD.val) :
    0 < pos.amount.val ∧
      ∃ pos', (run step (genesis A b) (events ++ [e])).positions.get k = some pos' ∧
        0 < pos'.amount.val ∧
        (pos'.amount.val < pos.amount.val → pos'.mintedZYTD.val < pos.mintedZYTD.val) ∧
        (isVaultMessage e = true → pos.amount.val ≤ pos'.amount.val) := by
  have hs := run_ledgers A b events
  obtain ⟨owner, -, hkey⟩ := hs.keyed k pos hpos
  subst hkey
  have hline := bookOf_found hpos
  have hdebt' : 0 < (bookOf A (run step (genesis A b) events) (owner, pos.ibcDenom)).debt := by
    rw [hline]
    exact hdebt
  have hcovered := hs.secured.covered _ hdebt'
  obtain ⟨op, hop⟩ := step_refines hs e
  obtain ⟨hmore, hkept⟩ := Refines.line_grows hop hdebt'
  obtain ⟨pos', hpos'⟩ := found_of_debt (lt_of_lt_of_le hdebt' hmore)
  rw [bookOf_found hpos', hline] at hkept
  rw [hline] at hcovered
  refine ⟨hcovered, pos', ?_, ?_, ?_, ?_⟩
  · rw [run_snoc]
    exact hpos'
  · exact lt_of_lt_of_le hcovered hkept
  · intro hlt
    exact absurd hkept (not_le.mpr hlt)
  · intro _
    exact hkept

/-- The oracle stores a price of the chain's own collateral, in units of `10⁻¹⁸`. -/
def priced (raw : ℤ) : Event devnet := .storeTWAP ⟨"uzytc", ⟨raw⟩, 0, 0, 1⟩

def mints (who : AccAddress) (amount requested : SdkInt) : Event devnet :=
  .mint block ⟨devnet.text who, "uzytc", some amount, some requested, 5, [], []⟩

/-- At price one, `alice` mints 500 against 1000 locked. -/
def aliceMints : List (Event devnet) :=
  [priced 1000000000000000000, mints alice (.newInt 1000) (.newInt 500)]

def alicePosition : CollateralPosition :=
  ⟨devnet.text alice, "uzytc", .newInt 1000, 1700000000, .newInt 500⟩

theorem aliceMints_position : (run step (genesis devnet treasury) aliceMints).positions.get
    (positionKey devnet alice "uzytc") = some alicePosition := by
  decide +kernel

/-- The owner's own attempt to unlock is one of the events after which the
position is still there. -/
theorem debt_stays_secured_devnet :
    0 < alicePosition.mintedZYTD.val ∧ 0 < alicePosition.amount.val ∧
      ∃ pos', (run step (genesis devnet treasury) (aliceMints ++
          [.unlock block ⟨devnet.text alice, "uzytc", some (.newInt 100)⟩])).positions.get
            (positionKey devnet alice "uzytc") = some pos' ∧
        0 < pos'.amount.val ∧
        (pos'.amount.val < alicePosition.amount.val →
          pos'.mintedZYTD.val < alicePosition.mintedZYTD.val) ∧
        (isVaultMessage (.unlock block ⟨devnet.text alice, "uzytc", some (.newInt 100)⟩ :
          Event devnet) = true → alicePosition.amount.val ≤ pos'.amount.val) :=
  ⟨by decide, debt_stays_secured devnet treasury aliceMints _ _ alicePosition aliceMints_position
    (by decide)⟩

end Zytherion.SecuredDebt
