import Zytherion.LwrHash
import Zytherion.Negacyclic
import Mathlib.Data.ZMod.Basic

/-!
# The rounded product of the lattice hash

`polyMulRound` multiplies two polynomials modulo `X^256 + 1` in a double loop over 32-bit
coefficients, reduces each coefficient modulo 3329 and scales it down to a byte. The
first factor is reduced and the second has coefficients -1, 0 and 1, so that a product of
coefficients is at most 3328 in size and 65536 of them do not leave the range.

Next to it stands the same computation on integers, in which every operation is checked
to stay within 32 bits.
-/
namespace Zytherion.RingProducts

open GoCall LwrHash Negacyclic Polynomial

/-- An integer that a 32-bit variable can hold. -/
def fits (x : ℤ) : Option ℤ := if -2 ^ 31 ≤ x ∧ x < 2 ^ 31 then some x else none

theorem fits_some {x : ℤ} (hlo : -2 ^ 31 ≤ x) (hhi : x < 2 ^ 31) : fits x = some x :=
  if_pos ⟨hlo, hhi⟩

abbrev Exact : Type := Vector ℤ lwrN

theorem degree_lt (i j : Fin lwrN) : (i.val + j.val) % lwrN < lwrN := Nat.mod_lt _ (by decide)

/-- `addProduct` with every result checked. -/
def addProductExact (a s : Exact) (i j : Fin lwrN) (b : Exact) : Option Exact := do
  let k := (i.val + j.val) % lwrN
  let prod ← fits (a.get i * s.get j)
  let old := b.get ⟨k, degree_lt i j⟩
  let sum ← if lwrN ≤ i.val + j.val then fits (old - prod) else fits (old + prod)
  return b.set k sum (degree_lt i j)

/-- `roundCoeff` with every result checked; the remainder of a negative number is negative. -/
def roundCoeffExact (x : ℤ) : Option ℤ := do
  let remainder ← fits (x.tmod lwrQ)
  let shifted ← fits (remainder + lwrQ)
  let val ← fits (shifted.tmod lwrQ)
  let scaled ← fits (val * lwrP)
  let rounded ← fits (scaled.tdiv lwrQ)
  fits (rounded.tmod lwrP)

def productsExact (a s : Exact) (ps : List (Fin lwrN × Fin lwrN)) : Option Exact :=
  ps.foldlM (fun b p => addProductExact a s p.1 p.2 b) (Vector.replicate lwrN 0)

/-- `polyMulRound` on integers; nothing is returned if a result leaves the range. -/
def polyMulRoundExact (a s : Exact) : Option (List ℤ) := do
  let b ← productsExact a s (pairs lwrN)
  b.toList.mapM roundCoeffExact

/-- The coefficients as integers. -/
def toInts (v : Ring) : Exact := v.map Int32.toInt

def coeffs (v : Ring) (i : Fin lwrN) : ℤ := v[i].toInt

/-! Operations that do not overflow. -/

section Words
variable {x y : Int32}

theorem bmod_of_fits {z : ℤ} (hlo : -2 ^ 31 ≤ z) (hhi : z < 2 ^ 31) : z.bmod (2 ^ 32) = z := by
  rw [Int.bmod_def]
  omega

theorem toInt_mul_of_fits (hlo : -2 ^ 31 ≤ x.toInt * y.toInt) (hhi : x.toInt * y.toInt < 2 ^ 31) :
    (x * y).toInt = x.toInt * y.toInt := by
  rw [Int32.toInt_mul]
  exact bmod_of_fits hlo hhi

theorem toInt_add_of_fits (hlo : -2 ^ 31 ≤ x.toInt + y.toInt) (hhi : x.toInt + y.toInt < 2 ^ 31) :
    (x + y).toInt = x.toInt + y.toInt := by
  rw [Int32.toInt_add]
  exact bmod_of_fits hlo hhi

theorem toInt_sub_of_fits (hlo : -2 ^ 31 ≤ x.toInt - y.toInt) (hhi : x.toInt - y.toInt < 2 ^ 31) :
    (x - y).toInt = x.toInt - y.toInt := by
  rw [Int32.toInt_sub]
  exact bmod_of_fits hlo hhi

end Words

/-! The double loop. -/

section Loop
variable {a s b : Ring} {i j : Fin lwrN} {bound : ℤ}

/-- No product of two coefficients is larger than the largest coefficient. -/
def SmallProducts (a s : Ring) : Prop :=
  ∀ i j, -3328 ≤ coeffs a i * coeffs s j ∧ coeffs a i * coeffs s j ≤ 3328

def Within (bound : ℤ) (b : Ring) : Prop := ∀ k, -bound ≤ coeffs b k ∧ coeffs b k ≤ bound

theorem addProduct_get (a s b : Ring) (i j k : Fin lwrN) :
    (addProduct a s i j b)[k] =
      if (i.val + j.val) % lwrN = k.val then
        if lwrN ≤ i.val + j.val then b[k] - a[i] * s[j] else b[k] + a[i] * s[j]
      else b[k] := by
  have hset : ∀ x, (b.set ((i.val + j.val) % lwrN) x (Nat.mod_lt _ (by decide)))[k] =
      if (i.val + j.val) % lwrN = k.val then x else b[k] := fun x => Vector.getElem_set ..
  unfold addProduct
  by_cases hwrap : lwrN ≤ i.val + j.val
  · simp only [if_pos hwrap, hset]
    split_ifs with hk
    · simp only [hk]
      rfl
    · rfl
  · simp only [if_neg hwrap, hset]
    split_ifs with hk
    · simp only [hk]
      rfl
    · rfl

/-- One product, as an integer, at its place. -/
theorem coeffs_addProduct (hsmall : SmallProducts a s) (hb : Within bound b)
    (hbound : bound + 3328 < 2 ^ 31) (i j k : Fin lwrN) :
    coeffs (addProduct a s i j b) k =
      coeffs b k + contribution (coeffs a) (coeffs s) k (i, j) := by
  obtain ⟨hlo, hhi⟩ := hb k
  obtain ⟨hplo, hphi⟩ := hsmall i j
  have hprod : (a[i] * s[j]).toInt = coeffs a i * coeffs s j := by
    apply toInt_mul_of_fits
    · show -2 ^ 31 ≤ coeffs a i * coeffs s j
      omega
    · show coeffs a i * coeffs s j < 2 ^ 31
      omega
  rw [coeffs, addProduct_get, contribution]
  by_cases hk : (i.val + j.val) % lwrN = k.val
  · rw [if_pos hk, if_pos hk]
    by_cases hwrap : lwrN ≤ i.val + j.val
    · rw [if_pos hwrap, if_pos hwrap, toInt_sub_of_fits, hprod]
      · exact sub_eq_add_neg _ _
      · rw [hprod]
        show -2 ^ 31 ≤ coeffs b k - _
        omega
      · rw [hprod]
        show coeffs b k - _ < 2 ^ 31
        omega
    · rw [if_neg hwrap, if_neg hwrap, toInt_add_of_fits, hprod]
      · rfl
      · rw [hprod]
        show -2 ^ 31 ≤ coeffs b k + _
        omega
      · rw [hprod]
        show coeffs b k + _ < 2 ^ 31
        omega
  · rw [if_neg hk, if_neg hk, add_zero]
    rfl

theorem contribution_small (hsmall : SmallProducts a s) (k : ℕ) (p : Fin lwrN × Fin lwrN) :
    -3328 ≤ contribution (coeffs a) (coeffs s) k p ∧
      contribution (coeffs a) (coeffs s) k p ≤ 3328 := by
  have := hsmall p.1 p.2
  unfold contribution
  split_ifs <;> omega

/-- The loop over some pairs. -/
def products (a s : Ring) (ps : List (Fin lwrN × Fin lwrN)) : Ring :=
  ps.foldl (fun b p => addProduct a s p.1 p.2 b) (Vector.replicate lwrN 0)

theorem products_snoc (a s : Ring) (ps : List (Fin lwrN × Fin lwrN)) (p : Fin lwrN × Fin lwrN) :
    products a s (ps ++ [p]) = addProduct a s p.1 p.2 (products a s ps) := List.foldl_append ..

/-- After some pairs every coefficient is the sum of their contributions. -/
theorem products_spec (hsmall : SmallProducts a s) (ps : List (Fin lwrN × Fin lwrN))
    (hlength : ps.length ≤ 65536) :
    Within (3328 * ps.length) (products a s ps) ∧
      ∀ k, coeffs (products a s ps) k =
        (ps.map (contribution (coeffs a) (coeffs s) k)).sum := by
  induction ps using List.reverseRecOn with
  | nil =>
      have hzero : ∀ k, coeffs (products a s []) k = 0 := by
        intro k
        rw [coeffs, products, List.foldl_nil]
        exact congrArg Int32.toInt (Vector.getElem_replicate ..)
      refine ⟨fun k => ?_, hzero⟩
      rw [hzero k]
      simp
  | append_singleton ps p ih =>
      rw [List.length_append, List.length_singleton] at hlength
      obtain ⟨hwithin, hsum⟩ := ih (by omega)
      have hbound : 3328 * (ps.length : ℤ) + 3328 < 2 ^ 31 := by omega
      have hstep : ∀ k, coeffs (addProduct a s p.1 p.2 (products a s ps)) k =
          coeffs (products a s ps) k + contribution (coeffs a) (coeffs s) k p :=
        coeffs_addProduct hsmall hwithin hbound p.1 p.2
      rw [products_snoc]
      constructor
      · intro k
        have hold := hwithin k
        have hnew := contribution_small hsmall k p
        rw [hstep k, List.length_append, List.length_singleton]
        push_cast
        omega
      · intro k
        rw [hstep k, hsum k, List.map_append, List.sum_append, List.map_singleton,
          List.sum_singleton]

theorem toInts_get (v : Ring) {m : ℕ} (hm : m < lwrN) : (toInts v)[m] = coeffs v ⟨m, hm⟩ :=
  Vector.getElem_map ..

/-- The checked step returns, with the same integers. -/
theorem addProductExact_toInts (hsmall : SmallProducts a s) (hb : Within bound b)
    (hbound : bound + 3328 < 2 ^ 31) (i j : Fin lwrN) :
    addProductExact (toInts a) (toInts s) i j (toInts b) =
      some (toInts (addProduct a s i j b)) := by
  have hk := degree_lt i j
  obtain ⟨hlo, hhi⟩ := hb ⟨_, hk⟩
  obtain ⟨hplo, hphi⟩ := hsmall i j
  have ha : (toInts a).get i = coeffs a i := toInts_get a i.isLt
  have hs : (toInts s).get j = coeffs s j := toInts_get s j.isLt
  have hold : (toInts b).get ⟨(i.val + j.val) % lwrN, hk⟩ = coeffs b ⟨_, hk⟩ := toInts_get b hk
  have hprod : fits ((toInts a).get i * (toInts s).get j) = some (coeffs a i * coeffs s j) := by
    rw [ha, hs]
    exact fits_some (by omega) (by omega)
  have hstep := coeffs_addProduct hsmall hb hbound i j
  have hset : ∀ x, x = coeffs b ⟨_, hk⟩ +
      contribution (coeffs a) (coeffs s) ((i.val + j.val) % lwrN) (i, j) →
      (toInts b).set ((i.val + j.val) % lwrN) x hk = toInts (addProduct a s i j b) := by
    rintro x rfl
    apply Vector.ext
    intro m hm
    rw [Vector.getElem_set, toInts_get (addProduct a s i j b) hm, hstep ⟨m, hm⟩]
    split_ifs with heq
    · subst heq
      rfl
    · rw [toInts_get b hm, contribution, if_neg heq, add_zero]
  unfold addProductExact
  simp only [hprod, hold, Option.bind_eq_bind, Option.bind_some]
  rw [contribution, if_pos rfl] at hset
  by_cases hwrap : lwrN ≤ i.val + j.val
  · rw [if_pos hwrap] at hset
    rw [if_pos hwrap, fits_some (by omega) (by omega), Option.bind_some]
    exact congrArg some (hset _ (sub_eq_add_neg _ _))
  · rw [if_neg hwrap] at hset
    rw [if_neg hwrap, fits_some (by omega) (by omega), Option.bind_some]
    exact congrArg some (hset _ rfl)

theorem productsExact_toInts (hsmall : SmallProducts a s) (ps : List (Fin lwrN × Fin lwrN))
    (hlength : ps.length ≤ 65536) :
    productsExact (toInts a) (toInts s) ps = some (toInts (products a s ps)) := by
  induction ps using List.reverseRecOn with
  | nil =>
      rw [productsExact, products, List.foldlM_nil, List.foldl_nil, toInts, Vector.map_replicate]
      rfl
  | append_singleton ps p ih =>
      rw [List.length_append, List.length_singleton] at hlength
      have hwithin := (products_spec hsmall ps (by omega)).1
      have hbound : 3328 * (ps.length : ℤ) + 3328 < 2 ^ 31 := by omega
      rw [productsExact, List.foldlM_append, ← productsExact, ih (by omega), products_snoc,
        ← addProductExact_toInts hsmall hwithin hbound p.1 p.2, Option.bind_eq_bind,
        Option.bind_some, List.foldlM_cons]
      exact bind_pure _

end Loop

/-! Rounding. -/

section Rounding

theorem positive_remainder (x : ℤ) : (x.tmod 3329 + 3329).tmod 3329 = x % 3329 := by
  have hpos : 0 ≤ x.tmod 3329 + 3329 := by
    have := Int.lt_tmod_of_pos x (by decide : (0 : ℤ) < 3329)
    omega
  rw [Int.tmod_eq_emod_of_nonneg hpos, Int.add_emod_right, Int.tmod_eq_emod]
  split_ifs <;> omega

/-- The byte for a coefficient. -/
def scaled (x : ℤ) : ℤ := 256 * (x % 3329) / 3329

theorem scaled_nonneg (x : ℤ) : 0 ≤ scaled x := by
  unfold scaled
  omega

theorem scaled_lt (x : ℤ) : scaled x < 256 := by
  unfold scaled
  omega

theorem scaled_steps (x : ℤ) : ((x % 3329 * 256).tdiv 3329).tmod 256 = scaled x := by
  have hnonneg := scaled_nonneg x
  have hlt := scaled_lt x
  have hscaled : (x % 3329 * 256).tdiv 3329 = scaled x := by
    rw [Int.tdiv_eq_ediv_of_nonneg (by omega), mul_comm, scaled]
  rw [hscaled, Int.tmod_eq_emod_of_nonneg hnonneg, Int.emod_eq_of_lt hnonneg hlt]

theorem roundCoeffExact_eq (x : ℤ) : roundCoeffExact x = some (scaled x) := by
  have hlo := Int.lt_tmod_of_pos x (by decide : (0 : ℤ) < 3329)
  have hhi := Int.tmod_lt_of_pos x (by decide : (0 : ℤ) < 3329)
  have hq : ((lwrQ : ℕ) : ℤ) = 3329 := rfl
  have hp : ((lwrP : ℕ) : ℤ) = 256 := rfl
  have hdiv : (x % 3329 * 256).tdiv 3329 = x % 3329 * 256 / 3329 :=
    Int.tdiv_eq_ediv_of_nonneg (by omega)
  have hnonneg := scaled_nonneg x
  have hlt := scaled_lt x
  have hremainder : fits (x.tmod 3329) = some (x.tmod 3329) := fits_some (by omega) (by omega)
  have hshifted : fits (x.tmod 3329 + 3329) = some (x.tmod 3329 + 3329) :=
    fits_some (by omega) (by omega)
  have hval : fits (x % 3329) = some (x % 3329) := fits_some (by omega) (by omega)
  have hscaled : fits (x % 3329 * 256) = some (x % 3329 * 256) := fits_some (by omega) (by omega)
  have hrounded : fits ((x % 3329 * 256).tdiv 3329) = some ((x % 3329 * 256).tdiv 3329) :=
    fits_some (by omega) (by omega)
  have hbyte : fits (scaled x) = some (scaled x) := fits_some (by omega) (by omega)
  simp only [roundCoeffExact, hq, hp, hremainder, hshifted, positive_remainder, hval, hscaled,
    hrounded, scaled_steps, hbyte, Option.bind_eq_bind, Option.bind_some]

theorem roundCoeff_toInt (x : Int32) : (roundCoeff x).toInt = scaled x.toInt := by
  have hlo := Int.lt_tmod_of_pos x.toInt (by decide : (0 : ℤ) < 3329)
  have hhi := Int.tmod_lt_of_pos x.toInt (by decide : (0 : ℤ) < 3329)
  have hq : (3329 : Int32).toInt = 3329 := by decide
  have hp : (256 : Int32).toInt = 256 := by decide
  have hremainder : (x % 3329).toInt = x.toInt.tmod 3329 := by rw [Int32.toInt_mod, hq]
  have hshifted : (x % 3329 + 3329).toInt = x.toInt.tmod 3329 + 3329 := by
    rw [toInt_add_of_fits, hremainder, hq] <;> rw [hremainder, hq] <;> omega
  have hval : ((x % 3329 + 3329) % 3329).toInt = x.toInt % 3329 := by
    rw [Int32.toInt_mod, hshifted, hq, positive_remainder]
  have hscaled : ((x % 3329 + 3329) % 3329 * 256).toInt = x.toInt % 3329 * 256 := by
    rw [toInt_mul_of_fits, hval, hp] <;> rw [hval, hp] <;> omega
  rw [roundCoeff, Int32.toInt_mod, Int32.toInt_div_of_ne_right _ _ (by decide), hscaled, hq, hp,
    scaled_steps]

end Rounding

/-! The rounded product. -/

/-- The coefficients of the two factors modulo `q`. -/
noncomputable def ringPoly (v : Ring) : (ZMod lwrQ)[X] :=
  toPoly fun i => ((coeffs v i : ℤ) : ZMod lwrQ)

/-- The coefficient of the product modulo `X^256 + 1` and modulo `q`, from 0 to `q - 1`. -/
noncomputable def productCoeff (a s : Ring) (k : ℕ) : ℕ :=
  ((ringPoly a * ringPoly s) %ₘ (X ^ lwrN + 1)).coeff k |>.val

section Product
variable {a s : Ring}

instance : Fact (1 < lwrQ) := ⟨by decide⟩

theorem smallProducts (ha : ∀ i : Fin lwrN, 0 ≤ coeffs a i ∧ coeffs a i < lwrQ)
    (hs : ∀ i : Fin lwrN, coeffs s i = -1 ∨ coeffs s i = 0 ∨ coeffs s i = 1) :
    SmallProducts a s := by
  intro i j
  have hq : ((lwrQ : ℕ) : ℤ) = 3329 := rfl
  obtain ⟨hlo, hhi⟩ := ha i
  rcases hs j with h | h | h <;> rw [h] <;> omega

/-- What the loop adds up is the coefficient of the product. -/
theorem products_emod (hsmall : SmallProducts a s) (k : Fin lwrN) :
    coeffs (products a s (pairs lwrN)) k % lwrQ = productCoeff a s k := by
  have hlength : (pairs lwrN).length ≤ 65536 := by
    rw [pairs_length]
    decide
  have hcoeff : ((ringPoly a * ringPoly s) %ₘ (X ^ lwrN + 1)).coeff k =
      ((coeffs (products a s (pairs lwrN)) k : ℤ) : ZMod lwrQ) := by
    rw [(products_spec hsmall _ hlength).2 k, sum_pairs, ringPoly, ringPoly,
      coeff_mul_modByMonic, Int.cast_sum]
    exact Finset.sum_congr rfl fun p _ =>
      (map_contribution (Int.castRingHom (ZMod lwrQ)) (coeffs a) (coeffs s) k p).symm
  rw [productCoeff, hcoeff, ZMod.val_intCast]

theorem polyMulRound_eq (a s : Ring) :
    polyMulRound a s = (products a s (pairs lwrN)).map roundCoeff := by
  rw [polyMulRound, foldl_pairs]
  rfl

theorem coeffs_polyMulRound (a s : Ring) (k : Fin lwrN) :
    coeffs (polyMulRound a s) k = scaled (coeffs (products a s (pairs lwrN)) k) := by
  have hget : ((products a s (pairs lwrN)).map roundCoeff)[k] =
      roundCoeff (products a s (pairs lwrN))[k] := Vector.getElem_map ..
  rw [polyMulRound_eq, coeffs, hget, roundCoeff_toInt]
  rfl

theorem polyMulRound_range (a s : Ring) (k : Fin lwrN) :
    0 ≤ coeffs (polyMulRound a s) k ∧ coeffs (polyMulRound a s) k < 256 := by
  rw [coeffs_polyMulRound]
  exact ⟨scaled_nonneg _, scaled_lt _⟩

theorem polyMulRound_productCoeff (hsmall : SmallProducts a s) (k : Fin lwrN) :
    coeffs (polyMulRound a s) k = 256 * productCoeff a s k / 3329 := by
  rw [coeffs_polyMulRound, scaled, ← products_emod hsmall k]
  rfl

/-- `byte(x)` of a number from 0 to 255. -/
theorem toUInt8_of_lt {x : Int32} (hlo : 0 ≤ x.toInt) (hhi : x.toInt < 256) :
    (x.toUInt32.toUInt8.toNat : ℤ) = x.toInt := by
  have hcases : x.toInt = if 2 * x.toUInt32.toNat < 2 ^ 32 then (x.toUInt32.toNat : ℤ)
      else x.toUInt32.toNat - (2 ^ 32 : ℕ) := BitVec.toInt_eq_toNat_cond _
  have hword := x.toUInt32.toNat_lt
  rw [UInt32.toNat_toUInt8]
  split_ifs at hcases <;> omega

/-- The checked computation returns, with the same integers. -/
theorem polyMulRoundExact_toInts (hsmall : SmallProducts a s) :
    polyMulRoundExact (toInts a) (toInts s) = some ((polyMulRound a s).toList.map Int32.toInt) := by
  have hlength : (pairs lwrN).length ≤ 65536 := by
    rw [pairs_length]
    decide
  have hround : roundCoeffExact = fun x => pure (scaled x) := funext roundCoeffExact_eq
  have hscaled : scaled ∘ Int32.toInt = Int32.toInt ∘ roundCoeff :=
    funext fun x => (roundCoeff_toInt x).symm
  rw [polyMulRoundExact, productsExact_toInts hsmall _ hlength, Option.bind_eq_bind,
    Option.bind_some, hround, List.mapM_pure, polyMulRound_eq, toInts, Vector.toList_map,
    Vector.toList_map, List.map_map, List.map_map, hscaled]
  rfl

/-- Each coefficient of `polyMulRound` is the coefficient of the product in the ring,
scaled down to a byte and rounded down; a byte holds it, and nothing on the way to it
leaves the range of 32 bits. -/
theorem polyMulRound_ring_product (a s : Ring)
    (ha : ∀ i : Fin lwrN, 0 ≤ coeffs a i ∧ coeffs a i < lwrQ)
    (hs : ∀ i : Fin lwrN, coeffs s i = -1 ∨ coeffs s i = 0 ∨ coeffs s i = 1) :
    (∀ k : Fin lwrN, coeffs (polyMulRound a s) k = 256 * productCoeff a s k / 3329 ∧
      0 ≤ coeffs (polyMulRound a s) k ∧ coeffs (polyMulRound a s) k < 256 ∧
      ((polyMulRound a s)[k].toUInt32.toUInt8.toNat : ℤ) = coeffs (polyMulRound a s) k) ∧
    polyMulRoundExact (toInts a) (toInts s) =
      some ((polyMulRound a s).toList.map Int32.toInt) := by
  have hsmall := smallProducts ha hs
  refine ⟨fun k => ?_, polyMulRoundExact_toInts hsmall⟩
  obtain ⟨hnonneg, hlt⟩ := polyMulRound_range a s k
  exact ⟨polyMulRound_productCoeff hsmall k, hnonneg, hlt, toUInt8_of_lt hnonneg hlt⟩

end Product

/-! The factors of a hash. -/

section Factors
variable (K : Keccak)

def Reduced (a : Ring) : Prop := ∀ i : Fin lwrN, 0 ≤ coeffs a i ∧ coeffs a i < lwrQ

theorem reduced_set {a : Ring} (ha : Reduced a) {x i : ℕ} (hx : x < lwrQ) (hi : i < lwrN) :
    Reduced (a.set i (Int32.ofNat x) hi) := by
  intro k
  have hget : (a.set i (Int32.ofNat x) hi)[k] = if i = k.val then Int32.ofNat x else a[k] :=
    Vector.getElem_set ..
  have hword : (Int32.ofNat x).toInt = x := by
    apply Int32.toInt_ofNat_of_lt
    exact hx.trans (by decide)
  rw [coeffs, hget]
  split_ifs
  · rw [hword]
    exact ⟨Int.natCast_nonneg x, by exact_mod_cast hx⟩
  · exact ha k

theorem drawCoeffs_reduced (stream : ℕ → UInt8) (fuel j i : ℕ) {a : Ring} (ha : Reduced a) :
    Reduced (drawCoeffs stream fuel j i a) := by
  induction fuel generalizing j i a with
  | zero => exact ha
  | succ fuel ih =>
      rw [drawCoeffs]
      split_ifs with hi hgood
      · exact ih _ _ (reduced_set ha hgood hi)
      · exact ih _ _ ha
      · exact ha

theorem coeffs_replicate (x : Int32) (i : Fin lwrN) :
    coeffs (Vector.replicate lwrN x) i = x.toInt :=
  congrArg Int32.toInt (Vector.getElem_replicate ..)

theorem expandMatrix_reduced (seed : List UInt8) : Reduced (expandMatrix K seed) := by
  apply drawCoeffs_reduced
  intro i
  rw [coeffs_replicate]
  decide

theorem secretCoeff_ternary (input : List UInt8) (i : ℕ) :
    (secretCoeff input i).toInt = -1 ∨ (secretCoeff input i).toInt = 0 ∨
      (secretCoeff input i).toInt = 1 := by
  unfold secretCoeff
  dsimp only
  split
  · exact .inl rfl
  · exact .inr (.inr rfl)
  · exact .inr (.inl rfl)

theorem inputToSecret_ternary (input : List UInt8) (i : Fin lwrN) :
    coeffs (inputToSecret input) i = -1 ∨ coeffs (inputToSecret input) i = 0 ∨
      coeffs (inputToSecret input) i = 1 := by
  unfold inputToSecret
  split_ifs
  · rw [coeffs_replicate]
    exact .inr (.inl rfl)
  · have hget : (Vector.ofFn fun i : Fin lwrN => secretCoeff input i)[i] = secretCoeff input i :=
      Vector.getElem_ofFn ..
    rw [coeffs, hget]
    exact secretCoeff_ternary input i

theorem outputBytes_get (b : Ring) {i : ℕ} (hi : i < lwrOutputCoeffs) (hk : i < lwrN) :
    (outputBytes b)[i]? = some b[i].toUInt32.toUInt8 := by
  have hlength : i < b.toList.length := by rwa [Vector.length_toList]
  rw [outputBytes, List.getElem?_map, List.getElem?_take_of_lt hi,
    List.getElem?_eq_getElem hlength, Vector.getElem_toList, Option.map_some]

theorem lwrHash_get (input prevHash : List UInt8) (i : ℕ) :
    (lwrHash K input prevHash)[32 + i]? = (outputBytes (polyMulRound
      (expandMatrix K (computeSeed K input prevHash)) (inputToSecret input)))[i]? := by
  rw [lwrHash, List.getElem?_append_right (by simp), computeSeed_length, Nat.add_sub_cancel_left]

/-- The bytes of a hash behind its seed. -/
theorem lwrHash_byte (input prevHash : List UInt8) {i : ℕ} (hi : i < lwrOutputCoeffs) :
    ∃ byte, (lwrHash K input prevHash)[32 + i]? = some byte ∧ (byte.toNat : ℤ) =
      256 * productCoeff (expandMatrix K (computeSeed K input prevHash)) (inputToSecret input) i /
        3329 := by
  have hk : i < lwrN := hi.trans (by decide)
  have hsmall := smallProducts (expandMatrix_reduced K (computeSeed K input prevHash))
    (inputToSecret_ternary input)
  have hcoeff := polyMulRound_productCoeff hsmall ⟨i, hk⟩
  have hrange := polyMulRound_range (expandMatrix K (computeSeed K input prevHash))
    (inputToSecret input) ⟨i, hk⟩
  rw [lwrHash_get, outputBytes_get _ hi hk]
  exact ⟨_, rfl, (toUInt8_of_lt hrange.1 hrange.2).trans hcoeff⟩

end Factors

/-- A factor of twos times one of minus ones. -/
def twos : Ring := Vector.replicate lwrN 2

def minusOnes : Ring := Vector.replicate lwrN (-1)

theorem coeffs_twos (i : Fin lwrN) : coeffs twos i = 2 := coeffs_replicate 2 i

theorem coeffs_minusOnes (i : Fin lwrN) : coeffs minusOnes i = -1 := coeffs_replicate (-1) i

theorem twos_times_minusOnes :
    (∀ k : Fin lwrN,
      coeffs (polyMulRound twos minusOnes) k = 256 * productCoeff twos minusOnes k / 3329) ∧
    polyMulRoundExact (toInts twos) (toInts minusOnes) =
      some ((polyMulRound twos minusOnes).toList.map Int32.toInt) := by
  have hproduct := polyMulRound_ring_product twos minusOnes
    (fun i => by rw [coeffs_twos]; decide) (fun i => .inl (coeffs_minusOnes i))
  exact ⟨fun k => (hproduct.1 k).1, hproduct.2⟩

end Zytherion.RingProducts
