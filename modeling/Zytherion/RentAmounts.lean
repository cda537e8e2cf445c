import Zytherion.StateRent

/-!
# The rent that is due, over all parameters and sizes

`RentDue` works in 64 bits: the billable bytes are a difference and the rent is a
product of three factors, and nothing checks that either fits. Parameters are
stored as they come, a negative rate or a negative free size included. The coin
is the exact rent when the rent is a number of 63 bits and the difference did
not wrap around. Otherwise the owner is charged something else, or the coin is
negative and the call panics.
-/
namespace Zytherion.RentAmounts

open GoCall KeyedStore SdkMath Application ChainState Bank ByteStrings Commitments StateRent

def setStateRentParams (J : RentCodec) (params : StateRentParams) : Handler Unit :=
  onStore (modifyStore fun s => s.set stateRentParamsKey (J.marshalParams params))

theorem getStateRentParams_set (J : RentCodec) (s : KVStore) (params : StateRentParams) :
    getStateRentParams J.toRentJSON (s.set stateRentParamsKey (J.marshalParams params)) =
      params := by
  simp [getStateRentParams, J.unmarshal_marshalParams]

theorem setStateRentParams_eq (J : RentCodec) (params : StateRentParams) (w : PrivacyState) :
    setStateRentParams J params w =
      .ok () { w with store := w.store.set stateRentParamsKey (J.marshalParams params) } := rfl

/-- The formula of the rent over the integers. -/
def exactRent (p : StateRentParams) (size blocks : Int64) : ℤ :=
  max 0 (size.toInt - p.maxFreeSizeBytes.toInt) * p.rentRatePerBytePerBlock.toInt *
    max 0 blocks.toInt

/-- The product of the three factors before any of them is cut off at zero. -/
def rawRent (p : StateRentParams) (size blocks : Int64) : ℤ :=
  (size.toInt - p.maxFreeSizeBytes.toInt) * p.rentRatePerBytePerBlock.toInt * blocks.toInt

section Wrapping
variable {n : ℤ}

theorem bmod_fits (n : ℤ) : Fits (n.bmod (2 ^ 64)) := by
  have hlow := Int.le_bmod (x := n) (m := 2 ^ 64) (by decide)
  have hhigh := Int.bmod_lt (x := n) (m := 2 ^ 64) (by decide)
  constructor <;> omega

theorem bmod_eq_self_iff : n.bmod (2 ^ 64) = n ↔ Fits n := by
  constructor
  · intro h
    rw [← h]
    exact bmod_fits n
  · exact bmod_of_fits

theorem bmod_eq_zero_iff : n.bmod (2 ^ 64) = 0 ↔ (2 ^ 64 : ℤ) ∣ n := by
  rw [← Int.dvd_iff_bmod_eq_zero]
  norm_num

end Wrapping

section Amounts
variable (p : StateRentParams) (size blocks : Int64)

/-- The amount `RentDue` computes, as a number. -/
theorem product_toInt :
    ((size - p.maxFreeSizeBytes) * p.rentRatePerBytePerBlock * blocks).toInt =
      (rawRent p size blocks).bmod (2 ^ 64) := by
  rw [Int64.toInt_mul, Int64.toInt_mul, Int64.toInt_sub, Int.bmod_mul_bmod, mul_assoc,
    Int.bmod_mul_bmod, ← mul_assoc]
  rfl

/-- What `RentDue` returns: nothing where nothing is billable, and the wrapped
product unless it is negative. -/
theorem rentDue_ok_iff {c : Coin} : p.rentDue size blocks = .ok c ↔
    if size - p.maxFreeSizeBytes ≤ 0 ∨ blocks ≤ 0 then c = ⟨stateRentDenom, .newInt 0⟩
    else 0 ≤ (rawRent p size blocks).bmod (2 ^ 64) ∧ c = ⟨stateRentDenom,
      .newInt ((size - p.maxFreeSizeBytes) * p.rentRatePerBytePerBlock * blocks)⟩ := by
  have hdenom : validateDenom stateRentDenom = true := by decide
  by_cases hnone : size - p.maxFreeSizeBytes ≤ 0 ∨ blocks ≤ 0
  · simp [StateRentParams.rentDue, if_pos hnone, newInt64Coin_ok, hdenom]
  · simp only [StateRentParams.rentDue, if_neg hnone, newInt64Coin_ok, hdenom, product_toInt,
      true_and]

end Amounts

/-- `RentDue` returns the exact rent. -/
def ReturnsExact (p : StateRentParams) (size blocks : Int64) : Prop :=
  ∃ c, p.rentDue size blocks = .ok c ∧ c.denom = stateRentDenom ∧ 0 ≤ c.amount.val ∧
    c.amount.val = exactRent p size blocks

section Exactness
variable {p : StateRentParams} {size blocks : Int64}

/-- Where nothing is billable the coin is empty. -/
theorem returnsExact_free (h : size - p.maxFreeSizeBytes ≤ 0 ∨ blocks ≤ 0) :
    ReturnsExact p size blocks ↔ exactRent p size blocks = 0 := by
  simp only [ReturnsExact, rentDue_ok_iff, if_pos h]
  constructor
  · rintro ⟨_, rfl, -, -, hexact⟩
    exact hexact.symm
  · intro hzero
    exact ⟨_, rfl, rfl, le_refl 0, hzero.symm⟩

/-- Elsewhere it is the wrapped product. -/
theorem returnsExact_billed (h : ¬(size - p.maxFreeSizeBytes ≤ 0 ∨ blocks ≤ 0)) :
    ReturnsExact p size blocks ↔ 0 ≤ (rawRent p size blocks).bmod (2 ^ 64) ∧
      (rawRent p size blocks).bmod (2 ^ 64) = exactRent p size blocks := by
  simp only [ReturnsExact, rentDue_ok_iff, if_neg h]
  constructor
  · rintro ⟨_, ⟨hnonneg, rfl⟩, -, -, hexact⟩
    rw [SdkInt.newInt_val, product_toInt] at hexact
    exact ⟨hnonneg, hexact⟩
  · rintro ⟨hnonneg, hexact⟩
    refine ⟨_, ⟨hnonneg, rfl⟩, rfl, ?_, ?_⟩
    · rw [SdkInt.newInt_val, product_toInt]
      exact hnonneg
    · rw [SdkInt.newInt_val, product_toInt]
      exact hexact

/-- The sign of a difference that did not fit is turned around. -/
theorem difference_wraps (h : ¬Fits (size.toInt - p.maxFreeSizeBytes.toInt)) :
    size - p.maxFreeSizeBytes ≤ 0 ↔ 0 < size.toInt - p.maxFreeSizeBytes.toInt := by
  have hsize := And.intro size.le_toInt size.toInt_lt
  have hfree := And.intro p.maxFreeSizeBytes.le_toInt p.maxFreeSizeBytes.toInt_lt
  rw [Int64.le_iff_toInt_le, Int64.toInt_sub, Int64.toInt_zero, Int.bmod_def]
  unfold Fits at h
  push_cast
  split_ifs <;> omega

/-- The rent is exact and never fails, exactly if it is a number of 63 bits and the
difference of the sizes fits; where no block is billed, and where the product of
the factors vanishes in 64 bits, the difference does not matter. -/
theorem returnsExact_iff : ReturnsExact p size blocks ↔
    (0 ≤ exactRent p size blocks ∧ exactRent p size blocks < 2 ^ 63) ∧
      (Fits (size.toInt - p.maxFreeSizeBytes.toInt) ∨ blocks ≤ 0 ∨
        (2 ^ 64 : ℤ) ∣ rawRent p size blocks) := by
  by_cases hblocks : blocks ≤ 0
  · have hzero : exactRent p size blocks = 0 := by
      rw [Int64.le_iff_toInt_le, Int64.toInt_zero] at hblocks
      rw [exactRent, max_eq_left hblocks, mul_zero]
    rw [returnsExact_free (.inr hblocks)]
    simp [hzero, hblocks]
  have hpos : max 0 blocks.toInt = blocks.toInt := by
    rw [Int64.le_iff_toInt_le, Int64.toInt_zero] at hblocks
    omega
  have hraw : 0 ≤ size.toInt - p.maxFreeSizeBytes.toInt →
      exactRent p size blocks = rawRent p size blocks := by
    intro h
    rw [exactRent, rawRent, hpos, max_eq_right h]
  have hfree : size.toInt - p.maxFreeSizeBytes.toInt ≤ 0 → exactRent p size blocks = 0 := by
    intro h
    rw [exactRent, max_eq_left h, zero_mul, zero_mul]
  by_cases hbytes : Fits (size.toInt - p.maxFreeSizeBytes.toInt)
  · have hle : size - p.maxFreeSizeBytes ≤ 0 ↔ size.toInt - p.maxFreeSizeBytes.toInt ≤ 0 := by
      rw [Int64.le_iff_toInt_le, toInt_sub_eq hbytes.1 hbytes.2, Int64.toInt_zero]
    simp only [hbytes, true_or, and_true]
    by_cases hnone : size - p.maxFreeSizeBytes ≤ 0
    · rw [returnsExact_free (.inl hnone), hfree (hle.mp hnone)]
      simp
    · rw [returnsExact_billed (not_or.mpr ⟨hnone, hblocks⟩),
        hraw (not_le.mp (mt hle.mpr hnone)).le, bmod_eq_self_iff, Fits]
      constructor
      · rintro ⟨hnonneg, hfits⟩
        rw [bmod_of_fits hfits] at hnonneg
        exact ⟨hnonneg, hfits.2⟩
      · rintro ⟨hnonneg, hlt⟩
        have hfits : Fits (rawRent p size blocks) := ⟨by omega, hlt⟩
        rw [bmod_of_fits hfits]
        exact ⟨hnonneg, hfits⟩
  · simp only [hbytes, hblocks, false_or]
    by_cases hnone : size - p.maxFreeSizeBytes ≤ 0
    · -- too large a difference is taken for none at all
      have hdiff := (difference_wraps hbytes).mp hnone
      rw [returnsExact_free (.inl hnone), hraw hdiff.le]
      constructor
      · intro hzero
        simp [hzero]
      · rintro ⟨⟨hnonneg, hlt⟩, hdvd⟩
        exact Int.eq_zero_of_dvd_of_nonneg_of_lt hnonneg (by omega) hdvd
    · -- too small a difference is taken for a large size
      have hdiff := not_lt.mp (mt (difference_wraps hbytes).mpr hnone)
      rw [returnsExact_billed (not_or.mpr ⟨hnone, hblocks⟩), hfree hdiff, bmod_eq_zero_iff]
      constructor
      · rintro ⟨-, hdvd⟩
        exact ⟨by norm_num, hdvd⟩
      · rintro ⟨-, hdvd⟩
        exact ⟨(bmod_eq_zero_iff.mpr hdvd).ge, hdvd⟩

end Exactness

/-- The same for the parameters as the keeper stores and reads them. -/
theorem rent_due_exact_iff (J : RentCodec) (w : PrivacyState) (p : StateRentParams)
    (size blocks : Int64) :
    ReturnsExact (getStateRentParams J.toRentJSON (commit (setStateRentParams J p) w).store) size
        blocks ↔
      (0 ≤ exactRent p size blocks ∧ exactRent p size blocks < 2 ^ 63) ∧
        (Fits (size.toInt - p.maxFreeSizeBytes.toInt) ∨ blocks ≤ 0 ∨
          (2 ^ 64 : ℤ) ∣ rawRent p size blocks) := by
  rw [commit_ok (setStateRentParams_eq J p w), getStateRentParams_set]
  exact returnsExact_iff

/-- A rate of `2 ^ 32` for each byte and block. -/
def dearRent : StateRentParams := ⟨4294967296, 1024, 14400⟩

/-- One byte at that rate is free after `2 ^ 32` blocks, and the call panics after
half of them. A negative rate panics, and bytes above a negative free size are
free. -/
theorem rent_wraps :
    dearRent.rentDue 1025 4294967296 = .ok ⟨"uzytc", .newInt 0⟩ ∧
      exactRent dearRent 1025 4294967296 = 18446744073709551616 ∧
      dearRent.rentDue 1025 2147483648 =
        .error "negative coin amount: -9223372036854775808" ∧
      (StateRentParams.mk (-1) 1024 14400).rentDue 1025 1 = .error "negative coin amount: -1" ∧
      (StateRentParams.mk 1 (-9223372036854775808) 14400).rentDue 1025 1 =
        .ok ⟨"uzytc", .newInt 0⟩ ∧
      exactRent ⟨1, -9223372036854775808, 14400⟩ 1025 1 = 9223372036854776833 := by
  decide +kernel

end Zytherion.RentAmounts
