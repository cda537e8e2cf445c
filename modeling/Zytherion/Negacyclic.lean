import Mathlib.Algebra.Polynomial.RingDivision
import Mathlib.Algebra.Polynomial.BigOperators

/-!
# Products modulo X^n + 1

The coefficients of a product of two polynomials of degree below `n`, reduced modulo
`X^n + 1`: a product of coefficients whose degrees add up to `n` or more comes back at
the remaining degree with the opposite sign.
-/
namespace Zytherion.Negacyclic

open Polynomial

variable {R : Type*} [CommRing R] {n : ℕ}

/-- What the coefficients at `i` and `j` contribute to the coefficient at `k`. -/
def contribution (f g : Fin n → R) (k : ℕ) (p : Fin n × Fin n) : R :=
  if (p.1.val + p.2.val) % n = k then
    if n ≤ p.1.val + p.2.val then -(f p.1 * g p.2) else f p.1 * g p.2
  else 0

theorem map_contribution {S : Type*} [CommRing S] (φ : R →+* S) (f g : Fin n → R) (k : ℕ)
    (p : Fin n × Fin n) :
    φ (contribution f g k p) = contribution (fun i => φ (f i)) (fun i => φ (g i)) k p := by
  unfold contribution
  split_ifs <;> simp

/-- The pairs of a double loop, in its order. -/
def pairs (n : ℕ) : List (Fin n × Fin n) :=
  (List.finRange n).flatMap fun i => (List.finRange n).map fun j => (i, j)

theorem pairs_length (n : ℕ) : (pairs n).length = n * n := by
  simp [pairs, List.length_flatMap]

theorem foldl_pairs {β : Type*} (f : β → Fin n → Fin n → β) (b : β) :
    (List.finRange n).foldl (fun b i => (List.finRange n).foldl (fun b j => f b i j) b) b =
      (pairs n).foldl (fun b p => f b p.1 p.2) b := by
  simp only [pairs, List.foldl_flatMap, List.foldl_map]

theorem sum_rows (h : Fin n × Fin n → R) (rows columns : List (Fin n)) :
    ((rows.flatMap fun i => columns.map fun j => (i, j)).map h).sum =
      (rows.map fun i => (columns.map fun j => h (i, j)).sum).sum := by
  induction rows with
  | nil => rfl
  | cons i rows ih =>
      rw [List.flatMap_cons, List.map_append, List.sum_append, ih, List.map_map, List.map_cons,
        List.sum_cons]
      rfl

theorem sum_pairs (h : Fin n × Fin n → R) : ((pairs n).map h).sum = ∑ p, h p := by
  rw [Fintype.sum_prod_type, Fin.sum_univ_def, pairs, sum_rows]
  simp only [Fin.sum_univ_def]

/-- The polynomial with the given coefficients. -/
noncomputable def toPoly (f : Fin n → R) : R[X] := ∑ i, monomial i.val (f i)

theorem toPoly_mul (f g : Fin n → R) :
    toPoly f * toPoly g = ∑ p : Fin n × Fin n, monomial (p.1.val + p.2.val) (f p.1 * g p.2) := by
  rw [toPoly, toPoly, Finset.sum_mul_sum, ← Finset.univ_product_univ, Finset.sum_product]
  simp only [monomial_mul_monomial]

theorem modulus_monic (hn : n ≠ 0) : (X ^ n + 1 : R[X]).Monic := by
  simpa using monic_X_pow_add_C (1 : R) hn

theorem low_monomial [Nontrivial R] (hn : n ≠ 0) {m : ℕ} (h : m < n) (x : R) :
    monomial m x %ₘ (X ^ n + 1) = monomial m x := by
  rw [modByMonic_eq_self_iff (modulus_monic hn)]
  have hdegree : (X ^ n + 1 : R[X]).degree = n := by
    simpa using degree_X_pow_add_C (Nat.pos_of_ne_zero hn) (1 : R)
  rw [hdegree]
  exact (degree_monomial_le m x).trans_lt (by exact_mod_cast h)

/-- `X^(n + m)` is `-X^m`. -/
theorem high_monomial [Nontrivial R] (hn : n ≠ 0) {m : ℕ} (h : m < n) (x : R) :
    monomial (n + m) x %ₘ (X ^ n + 1) = -monomial m x := by
  have hsplit : monomial (n + m) x = (X ^ n + 1) * monomial m x + -monomial m x := by
    rw [add_mul, one_mul, add_neg_cancel_right, X_pow_mul_monomial, add_comm]
  have hmultiple : (X ^ n + 1) * monomial m x %ₘ (X ^ n + 1) = 0 :=
    (modByMonic_eq_zero_iff_dvd (modulus_monic hn)).mpr (dvd_mul_right _ _)
  rw [hsplit, add_modByMonic, hmultiple, zero_add, ← map_neg, low_monomial hn h]

theorem coeff_monomial_modByMonic [Nontrivial R] (f g : Fin n → R) (k : ℕ) (p : Fin n × Fin n) :
    (monomial (p.1.val + p.2.val) (f p.1 * g p.2) %ₘ (X ^ n + 1)).coeff k =
      contribution f g k p := by
  have hn : n ≠ 0 := by
    have := p.1.isLt
    omega
  unfold contribution
  by_cases hlow : p.1.val + p.2.val < n
  · rw [low_monomial hn hlow, coeff_monomial, Nat.mod_eq_of_lt hlow, if_neg (not_le.mpr hlow)]
  · have hge : n ≤ p.1.val + p.2.val := not_lt.mp hlow
    have hrest : p.1.val + p.2.val - n < n := by
      have := p.1.isLt
      have := p.2.isLt
      omega
    have hmod : (p.1.val + p.2.val) % n = p.1.val + p.2.val - n := by
      rw [Nat.mod_eq_sub_mod hge, Nat.mod_eq_of_lt hrest]
    have hsum : p.1.val + p.2.val = n + (p.1.val + p.2.val - n) := by omega
    rw [hmod, if_pos hge]
    nth_rewrite 1 [hsum]
    rw [high_monomial hn hrest, coeff_neg, coeff_monomial]
    split_ifs <;> simp

/-- The coefficients of a reduced product. -/
theorem coeff_mul_modByMonic [Nontrivial R] (f g : Fin n → R) (k : ℕ) :
    ((toPoly f * toPoly g) %ₘ (X ^ n + 1)).coeff k = ∑ p, contribution f g k p := by
  have hsum : (toPoly f * toPoly g) %ₘ (X ^ n + 1) =
      ∑ p : Fin n × Fin n, monomial (p.1.val + p.2.val) (f p.1 * g p.2) %ₘ (X ^ n + 1) := by
    rw [toPoly_mul]
    exact map_sum (modByMonicHom (X ^ n + 1 : R[X])) _ _
  rw [hsum, finsetSum_coeff]
  exact Finset.sum_congr rfl fun p _ => coeff_monomial_modByMonic f g k p

end Zytherion.Negacyclic
