import Mathlib.Algebra.Order.Group.Int

/-!
# An abstract book of secured debt

Every key has a line with an amount of collateral and a debt. Collateral may be
added, collateral without debt may be taken out, and debt may be taken up
together with new collateral. In a secured book no line is negative and every
line with debt has collateral; the permitted operations keep a book secured and
never lower the collateral of a line that carries debt, nor any debt.
-/
namespace Zytherion.DebtBook

structure Line where
  amount : ℤ
  debt : ℤ
deriving DecidableEq, Repr

abbrev Book (K : Type) : Type := K → Line

inductive Op (K : Type) where
  | idle
  | deposit (k : K) (n : ℤ)
  | withdraw (k : K) (n : ℤ)
  | borrow (k : K) (c r : ℤ)

variable {K : Type} [DecidableEq K]

def Op.Allowed (b : Book K) : Op K → Prop
  | idle => True
  | deposit _ n => 0 < n
  | withdraw k n => (b k).debt = 0 ∧ 0 < n ∧ n ≤ (b k).amount
  | borrow _ c r => 0 < c ∧ 0 < r

/-- The key whose line changes. -/
def Op.key : Op K → Option K
  | idle => none
  | deposit k _ => some k
  | withdraw k _ => some k
  | borrow k _ _ => some k

/-- The change of a key's collateral. -/
def Op.lockedAt : Op K → K → ℤ
  | idle, _ => 0
  | deposit k n, l => if l = k then n else 0
  | withdraw k n, l => if l = k then -n else 0
  | borrow k c _, l => if l = k then c else 0

/-- The change of a key's debt. -/
def Op.drawnAt : Op K → K → ℤ
  | borrow k _ r, l => if l = k then r else 0
  | _, _ => 0

/-- The new debt altogether. -/
def Op.drawn : Op K → ℤ
  | borrow _ _ r => r
  | _ => 0

def Op.apply (b : Book K) (op : Op K) : Book K := fun l =>
  ⟨(b l).amount + op.lockedAt l, (b l).debt + op.drawnAt l⟩

structure Secured (b : Book K) : Prop where
  amount_nonneg : ∀ k, 0 ≤ (b k).amount
  debt_nonneg : ∀ k, 0 ≤ (b k).debt
  covered : ∀ k, 0 < (b k).debt → 0 < (b k).amount

variable {b : Book K} {op : Op K} {l : K}

theorem Op.apply_other (h : op.key ≠ some l) : op.apply b l = b l := by
  cases op <;> simp_all [Op.key, Op.apply, Op.lockedAt, Op.drawnAt, eq_comm]

theorem Op.drawnAt_nonneg (h : op.Allowed b) (l : K) : 0 ≤ op.drawnAt l := by
  cases op with
  | borrow k c r =>
      have hr := h.2
      simp only [Op.drawnAt]
      split_ifs <;> omega
  | _ => exact le_refl 0

/-- A withdrawal takes no more than there is. -/
theorem Op.amount_apply_nonneg (hb : Secured b) (h : op.Allowed b) (l : K) :
    0 ≤ (b l).amount + op.lockedAt l := by
  have hl := hb.amount_nonneg l
  cases op with
  | idle => simpa [Op.lockedAt] using hl
  | deposit k n =>
      have hn : 0 < n := h
      simp only [Op.lockedAt]
      split_ifs <;> omega
  | withdraw k n =>
      obtain ⟨-, -, hle⟩ := h
      simp only [Op.lockedAt]
      split_ifs with hk
      · subst hk
        omega
      · omega
  | borrow k c r =>
      have hc := h.1
      simp only [Op.lockedAt]
      split_ifs <;> omega

/-- Collateral behind debt is never lowered. -/
theorem Op.lockedAt_nonneg (h : op.Allowed b) (hl : (b l).debt ≠ 0) : 0 ≤ op.lockedAt l := by
  cases op with
  | idle => exact le_refl 0
  | deposit k n =>
      have hn : 0 < n := h
      simp only [Op.lockedAt]
      split_ifs <;> omega
  | withdraw k n =>
      simp only [Op.lockedAt]
      split_ifs with hk
      · subst hk
        exact (hl h.1).elim
      · exact le_refl 0
  | borrow k c r =>
      have hc := h.1
      simp only [Op.lockedAt]
      split_ifs <;> omega

/-- New debt comes with new collateral. -/
theorem Op.lockedAt_pos (h : op.Allowed b) (hl : 0 < op.drawnAt l) : 0 < op.lockedAt l := by
  cases op with
  | borrow k c r =>
      simp only [Op.drawnAt] at hl
      split_ifs at hl with hk
      · simpa [Op.lockedAt, hk] using h.1
      · exact absurd hl (lt_irrefl 0)
  | _ => exact absurd hl (lt_irrefl 0)

theorem Secured.apply (hb : Secured b) (h : op.Allowed b) : Secured (op.apply b) where
  amount_nonneg l := Op.amount_apply_nonneg hb h l
  debt_nonneg l := add_nonneg (hb.debt_nonneg l) (Op.drawnAt_nonneg h l)
  covered l hl := by
    show 0 < (b l).amount + op.lockedAt l
    have hamount := hb.amount_nonneg l
    rcases (hb.debt_nonneg l).eq_or_lt with hz | hpos
    · have hdrawn : 0 < op.drawnAt l := by
        change 0 < (b l).debt + op.drawnAt l at hl
        omega
      have hlocked := Op.lockedAt_pos h hdrawn
      omega
    · have hcovered := hb.covered l hpos
      have hlocked := Op.lockedAt_nonneg h hpos.ne'
      omega

end Zytherion.DebtBook
