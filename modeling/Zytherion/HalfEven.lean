import Mathlib.Algebra.Group.Int.Even
import Mathlib.Algebra.Order.Ring.Int
import Mathlib.Tactic.Linarith
import Mathlib.Tactic.Ring

/-!
# Division with the tie going to the even neighbour

`halfEven E d` is `d / E` rounded to the nearest integer, ties to even. One
comparison law (`halfEven_le_iff`) decides every question asked of it: a
rounded value is at most `m` exactly when the numerator has not passed the
midpoint above `m`, the midpoint itself counting for an even `m`. Monotonicity,
exactness on multiples and the half-unit error all follow.
-/
namespace Zytherion.HalfEven

/-- Quotient and remainder first, then the three-way comparison of the
remainder with half a unit. -/
def halfEven (E d : ℤ) : ℤ :=
  if 2 * (d % E) < E then d / E
  else if E < 2 * (d % E) then d / E + 1
  else if d / E % 2 = 0 then d / E
  else d / E + 1

variable {E d e m : ℤ}

/-- Rounding goes up past the midpoint, and at the midpoint from an odd quotient. -/
theorem halfEven_eq (E d : ℤ) :
    halfEven E d =
      if E < 2 * (d % E) ∨ 2 * (d % E) = E ∧ d / E % 2 = 1 then d / E + 1 else d / E := by
  unfold halfEven
  split_ifs <;> omega

theorem halfEven_le_iff (hE : 0 < E) :
    halfEven E d ≤ m ↔ 2 * d < (2 * m + 1) * E ∨ 2 * d = (2 * m + 1) * E ∧ m % 2 = 0 := by
  have hd := Int.ediv_mul_add_emod d E
  have hr := Int.emod_nonneg d hE.ne'
  have hlt := Int.emod_lt_of_pos d hE
  have hm : (2 * m + 1) * E = 2 * (m * E) + E := by ring
  rw [halfEven_eq, hm]
  generalize d / E = q at *
  generalize d % E = r at *
  -- only the order of `q` and `m` matters, and it moves the products by whole units
  rcases lt_trichotomy q m with h | rfl | h
  · have hq : q * E + E ≤ m * E := by nlinarith
    split_ifs <;> omega
  · split_ifs <;> omega
  · have hq : m * E + E ≤ q * E := by nlinarith
    split_ifs <;> omega

theorem lt_halfEven_iff (hE : 0 < E) :
    m < halfEven E d ↔ (2 * m + 1) * E < 2 * d ∨ 2 * d = (2 * m + 1) * E ∧ m % 2 = 1 := by
  rw [← not_le, halfEven_le_iff hE]
  omega

theorem halfEven_mono (hE : 0 < E) (h : d ≤ e) : halfEven E d ≤ halfEven E e := by
  rw [halfEven_le_iff hE]
  rcases (halfEven_le_iff hE).mp (le_refl (halfEven E e)) with he | ⟨he, hm⟩ <;> omega

@[simp] theorem halfEven_mul_self (hE : 0 < E) : halfEven E (m * E) = m := by
  rw [halfEven_eq, Int.mul_emod_left, Int.mul_ediv_cancel _ hE.ne']
  split_ifs <;> omega

/-- A common factor cancels. -/
theorem halfEven_mul_mul {k : ℤ} (hk : 0 < k) : halfEven (E * k) (d * k) = halfEven E d := by
  have hdiv : d * k / (E * k) = d / E := Int.mul_ediv_mul_of_pos_left d E hk
  have hmod : d * k % (E * k) = d % E * k := by
    rw [Int.emod_def, Int.emod_def, hdiv]
    ring
  rw [halfEven_eq, halfEven_eq, hdiv, hmod, ← mul_assoc]
  simp only [mul_lt_mul_iff_left₀ hk, mul_left_inj' hk.ne']

theorem halfEven_nonneg (hE : 0 < E) (hd : 0 ≤ d) : 0 ≤ halfEven E d := by
  have h := halfEven_mono hE hd
  have hz : halfEven E 0 = 0 := by simpa using halfEven_mul_self (m := 0) hE
  rwa [hz] at h

/-- The rounded value times the unit is within half a unit of the numerator. -/
theorem halfEven_error (hE : 0 < E) (d : ℤ) :
    2 * (halfEven E d * E) ≤ 2 * d + E ∧ 2 * d ≤ 2 * (halfEven E d * E) + E := by
  constructor
  · have h := mt (halfEven_le_iff (d := d) (m := halfEven E d - 1) hE).mpr (by omega)
    have hm : (2 * (halfEven E d - 1) + 1) * E = 2 * (halfEven E d * E) - E := by ring
    omega
  · have h := (halfEven_le_iff hE).mp (le_refl (halfEven E d))
    have hm : (2 * halfEven E d + 1) * E = 2 * (halfEven E d * E) + E := by ring
    omega

/-- A value that rounds up to the multiple `m * E` of an even unit is at most
half a step below it, the midpoint included. -/
theorem mul_le_halfEven_iff (hE : 0 < E) {F : ℤ} (hF : F % 2 = 0) :
    m * F ≤ halfEven E d ↔ 2 * (m * F) * E ≤ 2 * d + E := by
  have hodd : (m * F - 1) % 2 = 1 := by
    rw [Int.sub_emod, Int.mul_emod, hF]
    simp
  have hr : (2 * (m * F - 1) + 1) * E = 2 * (m * F) * E - E := by ring
  have h := lt_halfEven_iff (d := d) (m := m * F - 1) hE
  rw [hr] at h
  omega

/-- A quotient `N / D` that is computed to `E` steps, rounded and cut off again
is the exact one, unless the remainder falls short of `D` by less than half a
step. -/
theorem ediv_halfEven_le_iff (hE : 0 < E) (heven : E % 2 = 0) {N D : ℤ} (hD : 0 < D) :
    halfEven E (N * (E * E) / D) / E ≤ N / D ↔ D < 2 * E * (D - N % D) := by
  have hN := Int.ediv_mul_add_emod N D
  obtain ⟨k, rfl⟩ : ∃ k, E = 2 * k := ⟨E / 2, by omega⟩
  have hstep : (N / D + 1) * (2 * k) ≤ halfEven (2 * k) (N * (2 * k * (2 * k)) / D) ↔
      ((N / D + 1) * (2 * k * (2 * k)) - k) * D ≤ N * (2 * k * (2 * k)) := by
    rw [mul_le_halfEven_iff hE heven, ← Int.le_ediv_iff_mul_le hD]
    constructor <;> intro h <;> nlinarith
  refine not_lt.symm.trans ((not_congr ?_).trans not_le)
  rw [← Int.add_one_le_iff, Int.le_ediv_iff_mul_le hE, hstep]
  generalize N / D = q at *
  generalize N % D = r at *
  subst hN
  have hk : 0 < k := by omega
  have hfactor : (q * D + r) * (2 * k * (2 * k)) - ((q + 1) * (2 * k * (2 * k)) - k) * D =
      k * (D - 2 * (2 * k) * (D - r)) := by ring
  constructor
  · intro h
    have hmul : 0 ≤ k * (D - 2 * (2 * k) * (D - r)) := by omega
    have hle := nonneg_of_mul_nonneg_right hmul hk
    omega
  · intro h
    have hmul : 0 ≤ k * (D - 2 * (2 * k) * (D - r)) := mul_nonneg hk.le (by omega)
    omega

/-- A quotient `N / M` that is rounded after one more factor `E`, from its
quotient and remainder. -/
theorem halfEven_mul_ediv (hE : 0 < E) (heven : E % 2 = 0) {N M : ℤ} (hM : 0 < M) :
    halfEven E (N * E / M) =
      if (E / 2 + 1) * M ≤ N % M * E ∨ M ≤ 2 * (N % M) ∧ N / M % 2 = 1 then N / M + 1
      else N / M := by
  obtain ⟨k, rfl⟩ : ∃ k, E = 2 * k := ⟨E / 2, by omega⟩
  have hk : 0 < k := by omega
  have hr := Int.emod_nonneg N hM.ne'
  have hlt := Int.emod_lt_of_pos N hM
  have hsplit : N * (2 * k) / M = N % M * (2 * k) / M + N / M * (2 * k) := by
    rw [← Int.add_mul_ediv_right _ _ hM.ne']
    congr 1
    linarith [congrArg (· * (2 * k)) (Int.ediv_mul_add_emod N M),
      mul_right_comm (N / M) (2 * k) M]
  have hw₀ : 0 ≤ N % M * (2 * k) / M := Int.ediv_nonneg (mul_nonneg hr hE.le) hM.le
  have hw₁ : N % M * (2 * k) / M < 2 * k :=
    Int.ediv_lt_of_lt_mul hM (by linarith [mul_lt_mul_of_pos_right hlt hE, mul_comm M (2 * k)])
  have hq : N * (2 * k) / M / (2 * k) = N / M := by
    rw [hsplit, Int.add_mul_ediv_right _ _ hE.ne', Int.ediv_eq_zero_of_lt hw₀ hw₁, zero_add]
  have hrem : N * (2 * k) / M % (2 * k) = N % M * (2 * k) / M := by
    rw [hsplit, Int.add_mul_emod_self_right, Int.emod_eq_of_lt hw₀ hw₁]
  -- past the midpoint, and at it, in terms of the remainder itself
  have habove : k + 1 ≤ N % M * (2 * k) / M ↔ (k + 1) * M ≤ N % M * (2 * k) :=
    Int.le_ediv_iff_mul_le hM
  have hat : k ≤ N % M * (2 * k) / M ↔ M ≤ 2 * (N % M) := by
    rw [Int.le_ediv_iff_mul_le hM]
    constructor
    · intro h
      exact le_of_mul_le_mul_left (by linarith [mul_left_comm (N % M) 2 k]) hk
    · intro h
      linarith [mul_le_mul_of_nonneg_left h hk.le]
  rw [halfEven_eq, hq, hrem, Int.mul_ediv_cancel_left k (by decide : (2 : ℤ) ≠ 0)]
  refine if_congr ?_ rfl rfl
  rw [← habove, ← hat]
  omega

end Zytherion.HalfEven
