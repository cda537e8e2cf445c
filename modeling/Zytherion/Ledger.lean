import Mathlib.Algebra.BigOperators.Group.Finset.Basic
import Mathlib.Algebra.BigOperators.Group.Finset.Piecewise
import Mathlib.Algebra.Order.BigOperators.Group.Finset
import Mathlib.Algebra.Order.Group.Int
import Mathlib.Tactic.Linarith

/-!
# Balances, transfers and what backs them

A ledger gives every account an integer. It is backed by `T` when no balance
is negative and no finite group of accounts holds more than `T` together. The
second half is stated over finite groups because the accounts themselves need
not be finite. A transfer out of an account that can afford it keeps a ledger
backed; issuing moves the backing with the balance.
-/
namespace Zytherion.Ledger

variable {Acc : Type} [DecidableEq Acc]

/-- `n` units leave `a` and reach `b`. The two may be the same account. -/
def move (f : Acc → ℤ) (a b : Acc) (n : ℤ) : Acc → ℤ := fun x =>
  f x - (if x = a then n else 0) + (if x = b then n else 0)

/-- `n` new units appear at `a`. -/
def issue (f : Acc → ℤ) (a : Acc) (n : ℤ) : Acc → ℤ := fun x =>
  f x + (if x = a then n else 0)

structure Backed (f : Acc → ℤ) (T : ℤ) : Prop where
  nonneg : ∀ x, 0 ≤ f x
  within : ∀ S : Finset Acc, ∑ x ∈ S, f x ≤ T

variable {f : Acc → ℤ} {T n : ℤ} {a b : Acc}

theorem move_zero (f : Acc → ℤ) (a b : Acc) : move f a b 0 = f := by
  funext x
  simp [move]

theorem issue_zero (f : Acc → ℤ) (a : Acc) : issue f a 0 = f := by
  funext x
  simp [issue]

omit [DecidableEq Acc] in
theorem Backed.le (h : Backed f T) (x : Acc) : f x ≤ T := by
  simpa using h.within {x}

/-- Two different accounts together hold no more than the backing. -/
theorem Backed.add_le (h : Backed f T) (hab : a ≠ b) : f a + f b ≤ T := by
  have hs := h.within {a, b}
  rwa [Finset.sum_pair hab] at hs

theorem sum_issue (S : Finset Acc) :
    ∑ x ∈ S, issue f a n x = ∑ x ∈ S, f x + if a ∈ S then n else 0 := by
  simp only [issue, Finset.sum_add_distrib, Finset.sum_ite_eq']

theorem sum_move (S : Finset Acc) :
    ∑ x ∈ S, move f a b n x =
      ∑ x ∈ S, f x - (if a ∈ S then n else 0) + (if b ∈ S then n else 0) := by
  simp only [move, Finset.sum_add_distrib, Finset.sum_sub_distrib, Finset.sum_ite_eq']

theorem Backed.move (h : Backed f T) (hn : 0 ≤ n) (ha : n ≤ f a) :
    Backed (move f a b n) T where
  nonneg x := by
    have hx := h.nonneg x
    unfold Ledger.move
    split_ifs with h₁ h₂ h₂ <;> subst_vars <;> omega
  within S := by
    rw [sum_move]
    by_cases hS : a ∈ S
    · have hw := h.within S
      split_ifs <;> omega
    · -- the payer joins the group, and brings at least the units the group gained
      have hw := h.within (insert a S)
      rw [Finset.sum_insert hS] at hw
      split_ifs <;> omega

theorem Backed.issue (h : Backed f T) (hn : 0 ≤ n) : Backed (issue f a n) (T + n) where
  nonneg x := by
    have hx := h.nonneg x
    unfold Ledger.issue
    split_ifs <;> omega
  within S := by
    have hw := h.within S
    rw [sum_issue]
    split_ifs <;> omega

end Zytherion.Ledger
