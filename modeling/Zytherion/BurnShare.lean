import Zytherion.StablecoinMsgServer
import Mathlib.Tactic.LinearCombination

/-!
# What a burn gives back

A burn of `a` out of the debt `M` returns the share `a / M` of the locked
collateral `P`. The code rounds the share half to even at the eighteenth decimal
and multiplies afterwards, so a share that was rounded up is rounded up `P`
times. The result is the exact floor or less unless that surplus carries over
the next integer. `NoCarry` says in terms of the three numbers when it does not,
and burns that all fit and avoid the carry return in total no more than one burn
of their sum is due.
-/
namespace Zytherion.BurnShare

open GoCall SdkMath HalfEven StablecoinMsgServer

/-- The collateral a burn returns, from the ratio to the truncation. -/
def burnReturn (a minted locked : SdkInt) : Checked SdkInt := do
  let ratio ← burnRatio a minted
  returnAmount ratio locked

/-- The total of several burns, each computed on what the ones before left. -/
def burnReturns : List SdkInt → SdkInt → SdkInt → Checked ℤ
  | [], _, _ => .ok 0
  | a :: rest, minted, locked => do
      let returned ← burnReturn a minted locked
      let mintedLeft ← minted.sub a
      let lockedLeft ← locked.sub returned
      let more ← burnReturns rest mintedLeft lockedLeft
      return returned.val + more

/-- The share `a / M` lies past the middle of its step, or at most a rounding
error below the middle of an odd one. -/
def RoundsUp (a M : ℤ) : Prop :=
  (precision / 2 + 1) * M ≤ a * precision % M * precision ∨
    M ≤ 2 * (a * precision % M) ∧ a * precision / M % 2 = 1

instance (a M : ℤ) : Decidable (RoundsUp a M) := inferInstanceAs (Decidable (_ ∨ _))

/-- What rounding up adds, multiplied by `P`, stays below the next integer. -/
def NoCarry (a M P : ℤ) : Prop :=
  RoundsUp a M → a * P % M * precision + (M - a * precision % M) * P < M * precision

instance (a M P : ℤ) : Decidable (NoCarry a M P) := inferInstanceAs (Decidable (_ → _))

/-- The rounded share in steps. -/
def shareSteps (a M : ℤ) : ℤ :=
  if RoundsUp a M then a * precision / M + 1 else a * precision / M

/-- Share times collateral is narrow enough for a decimal; otherwise the burn panics. -/
def Fits (a M P : ℤ) : Prop := shareSteps a M * P < decBound

instance (a M P : ℤ) : Decidable (Fits a M P) := inferInstanceAs (Decidable (_ < _))

section Share
variable {a M P r : SdkInt}

theorem burnRatio_raw (ha : 0 ≤ a.val) (hM : 0 < M.val) {ratio : Dec}
    (h : burnRatio a M = .ok ratio) : ratio.raw = shareSteps a.val M.val := by
  have hE := precision_pos
  have hnum : 0 ≤ a.val * precision * (precision * precision) := by positivity
  rw [burnRatio, Dec.quo_ok, Dec.ofInt_raw, Dec.ofInt_raw, Int.tdiv_eq_ediv_of_nonneg hnum] at h
  obtain ⟨-, hraw, -⟩ := h
  have hcancel : a.val * precision * (precision * precision) / (M.val * precision) =
      a.val * precision * precision / M.val := by
    rw [← mul_assoc, Int.mul_ediv_mul_of_pos_left _ _ hE]
  rw [hcancel, chop_of_nonneg (Int.ediv_nonneg (by positivity) hM.le),
    halfEven_mul_ediv hE (by decide) hM] at hraw
  exact hraw

theorem burnRatio_returns (ha : 0 ≤ a.val) (haM : a.val ≤ M.val) (hM : 0 < M.val) :
    ∃ ratio, burnRatio a M = .ok ratio ∧ 0 ≤ ratio.raw ∧ ratio.raw ≤ precision := by
  have hE := precision_pos
  have hle : a.val * precision * precision ≤ precision * (M.val * precision) := by
    calc a.val * precision * precision ≤ M.val * precision * precision := by gcongr
      _ = precision * (M.val * precision) := by ring
  exact Dec.quo_returns (a := Dec.ofInt a) (b := Dec.ofInt M) (mul_nonneg ha hE.le)
    (mul_pos hM hE) hle (by decide)

theorem shareSteps_bounds (ha : 0 ≤ a.val) (haM : a.val ≤ M.val) (hM : 0 < M.val) :
    0 ≤ shareSteps a.val M.val ∧ shareSteps a.val M.val ≤ precision := by
  obtain ⟨ratio, hratio, hbounds⟩ := burnRatio_returns ha haM hM
  rwa [burnRatio_raw ha hM hratio] at hbounds

/-- Everything a burn can return: the rounded share of the collateral, cut off. -/
theorem burnReturn_ok (ha : 0 ≤ a.val) (haM : a.val ≤ M.val) (hM : 0 < M.val) (hP : 0 ≤ P.val) :
    burnReturn a M P = .ok r ↔
      r.val = shareSteps a.val M.val * P.val / precision ∧ Fits a.val M.val P.val := by
  obtain ⟨ratio, hratio, -⟩ := burnRatio_returns ha haM hM
  have hraw := burnRatio_raw ha hM hratio
  have hpos : 0 ≤ shareSteps a.val M.val * P.val := mul_nonneg (shareSteps_bounds ha haM hM).1 hP
  simp only [burnReturn, returnAmount, checked_bind_ok, Dec.mulInt_ok, Dec.truncateInt_ok]
  unfold Fits
  constructor
  · rintro ⟨ratio', hratio', share, ⟨hshare, hfits⟩, hr⟩
    rw [burnRatio_raw ha hM hratio'] at hshare hfits
    rw [hr, hshare, Int.tdiv_eq_ediv_of_nonneg hpos]
    exact ⟨rfl, by omega⟩
  · rintro ⟨hr, hfits⟩
    refine ⟨ratio, hratio, ⟨shareSteps a.val M.val * P.val⟩, ⟨by rw [hraw], by rw [hraw]; omega⟩, ?_⟩
    rw [hr, Int.tdiv_eq_ediv_of_nonneg hpos]

end Share

section Floor
variable {a M P : ℤ}

/-- A share that is cut off or rounded down returns the floor at most. -/
theorem down_le (hM : 0 < M) (hP : 0 ≤ P) : a * precision / M * P / precision ≤ a * P / M := by
  have hE := precision_pos
  rw [Int.le_ediv_iff_mul_le hM]
  refine le_of_mul_le_mul_right ?_ hE
  calc a * precision / M * P / precision * M * precision
      = a * precision / M * P / precision * precision * M := by ring
    _ ≤ a * precision / M * P * M := mul_le_mul_of_nonneg_right (Int.ediv_mul_le _ hE.ne') hM.le
    _ = a * precision / M * M * P := by ring
    _ ≤ a * precision * P := mul_le_mul_of_nonneg_right (Int.ediv_mul_le _ hM.ne') hP
    _ = a * P * precision := by ring

/-- One that is rounded up does so exactly without a carry. -/
theorem up_le_iff (hM : 0 < M) : (a * precision / M + 1) * P / precision ≤ a * P / M ↔
    a * P % M * precision + (M - a * precision % M) * P < M * precision := by
  have hE := precision_pos
  have hshare := Int.ediv_mul_add_emod (a * precision) M
  have hfloor := Int.ediv_mul_add_emod (a * P) M
  rw [← Int.lt_add_one_iff, Int.ediv_lt_iff_lt_mul hE, ← mul_lt_mul_iff_of_pos_right hM]
  generalize a * precision / M = q at *
  generalize a * precision % M = r at *
  generalize a * P / M = k at *
  generalize a * P % M = l at *
  -- both sides times `M`, with quotients and remainders put together again
  have hleft : (q + 1) * P * M = a * P * precision + (M - r) * P := by
    linear_combination P * hshare
  have hright : (k + 1) * precision * M = a * P * precision + M * precision - l * precision := by
    linear_combination precision * hfloor
  rw [hleft, hright]
  constructor <;> intro h <;> linarith

theorem share_le_iff (hM : 0 < M) (hP : 0 ≤ P) :
    shareSteps a M * P / precision ≤ a * P / M ↔ NoCarry a M P := by
  unfold shareSteps NoCarry
  split_ifs with hup
  · rw [up_le_iff hM]
    simp [hup]
  · simp [hup, down_le hM hP]

/-- The whole debt is the whole share. -/
theorem shareSteps_self (hM : 0 < M) : shareSteps M M = precision := by
  have hmod : M * precision % M = 0 := Int.mul_emod_right M precision
  have hE := precision_pos
  have hdown : ¬ RoundsUp M M := by
    unfold RoundsUp
    rw [hmod]
    have hpos : 0 < (precision / 2 + 1) * M := mul_pos (by decide) hM
    rintro (h | h) <;> omega
  rw [shareSteps, if_neg hdown, Int.mul_ediv_cancel_left _ hM.ne']

end Floor

/-- What the burn of `a` out of `M` is to return of `P`. -/
def SharesExactly (a M P : SdkInt) : Prop := ∃ r, burnReturn a M P = .ok r ∧
  0 ≤ r.val ∧ r.val ≤ a.val * P.val / M.val ∧ a.val * P.val / M.val ≤ P.val ∧
    (a.val = M.val → r.val = P.val)

/-- Every burn of the sequence fits and none carries, each looked at in the state
it meets. -/
def NoCarries : List SdkInt → SdkInt → SdkInt → Prop
  | [], _, _ => True
  | a :: rest, M, P => Fits a.val M.val P.val ∧ NoCarry a.val M.val P.val ∧
      ∀ r M' P', burnReturn a M P = .ok r → M.sub a = .ok M' → P.sub r = .ok P' →
        NoCarries rest M' P'

section Burns
variable {a M P : SdkInt}

theorem sharesExactly_iff (ha : 0 < a.val) (haM : a.val ≤ M.val) (hP : 0 ≤ P.val) :
    SharesExactly a M P ↔ Fits a.val M.val P.val ∧ NoCarry a.val M.val P.val := by
  have hM : 0 < M.val := by omega
  have hsteps := shareSteps_bounds ha.le haM hM
  have hpos : 0 ≤ shareSteps a.val M.val * P.val := mul_nonneg hsteps.1 hP
  constructor
  · rintro ⟨r, hreturn, -, hle, -⟩
    obtain ⟨hr, hfits⟩ := (burnReturn_ok ha.le haM hM hP).mp hreturn
    rw [hr, share_le_iff hM hP] at hle
    exact ⟨hfits, hle⟩
  · rintro ⟨hfits, hcarry⟩
    obtain ⟨r, -, hr⟩ := Dec.truncateInt_returns (a := ⟨shareSteps a.val M.val * P.val⟩) hpos hfits
    refine ⟨r, (burnReturn_ok ha.le haM hM hP).mpr ⟨hr, hfits⟩, ?_⟩
    rw [hr]
    refine ⟨Int.ediv_nonneg hpos precision_pos.le, (share_le_iff hM hP).mpr hcarry, ?_, ?_⟩
    · apply Int.ediv_le_of_le_mul hM
      calc a.val * P.val ≤ M.val * P.val := mul_le_mul_of_nonneg_right haM hP
        _ = P.val * M.val := mul_comm _ _
    · intro hall
      rw [hall, shareSteps_self hM, Int.mul_ediv_cancel_left _ precision_pos.ne']

/-- A burn of `a` and then burns of `n` altogether, both within their shares. -/
theorem split_le {a n M P r more : ℤ} (hM : 0 ≤ M) (hleft : 0 < M - a) (hsum : a + n ≤ M)
    (hr : r * M ≤ a * P) (hmore : more * (M - a) ≤ n * (P - r)) : (r + more) * M ≤ (a + n) * P := by
  have hfirst : 0 ≤ (M - a - n) * (a * P - r * M) := mul_nonneg (by omega) (by omega)
  have hrest : 0 ≤ M * (n * (P - r) - more * (M - a)) := mul_nonneg hM (by omega)
  refine le_of_mul_le_mul_right ?_ hleft
  have hsplit : (a + n) * P * (M - a) - (r + more) * M * (M - a) =
      (M - a - n) * (a * P - r * M) + M * (n * (P - r) - more * (M - a)) := by ring
  omega

theorem length_le_sum (burns : List SdkInt) (hpos : ∀ a ∈ burns, 0 < a.val) :
    (burns.length : ℤ) ≤ (burns.map SdkInt.val).sum := by
  induction burns with
  | nil => exact le_refl 0
  | cons a rest ih =>
      have ha := hpos a (by simp)
      have hrest := ih fun b hb => hpos b (by simp [hb])
      simp only [List.length_cons, List.map_cons, List.sum_cons]
      push_cast
      omega

/-- Burns that fit and do not carry return, in total at most the share of their sum. -/
theorem burnReturns_le (burns : List SdkInt) (hpos : ∀ a ∈ burns, 0 < a.val)
    (hsum : (burns.map SdkInt.val).sum ≤ M.val) (hP : 0 ≤ P.val) (hclean : NoCarries burns M P) :
    ∃ total, burnReturns burns M P = .ok total ∧
      total * M.val ≤ (burns.map SdkInt.val).sum * P.val := by
  induction burns generalizing M P with
  | nil => exact ⟨0, rfl, by simp⟩
  | cons a rest ih =>
      obtain ⟨hfits, hcarry, hrest⟩ := hclean
      have ha := hpos a (by simp)
      have hrestpos : ∀ b ∈ rest, 0 < b.val := fun b hb => hpos b (by simp [hb])
      have hlength := length_le_sum rest hrestpos
      simp only [List.map_cons, List.sum_cons] at hsum ⊢
      have hM : 0 < M.val := by omega
      obtain ⟨r, hr, hnonneg, hle, hfloor, -⟩ := (sharesExactly_iff ha (by omega) hP).mpr ⟨hfits, hcarry⟩
      have hshare : r.val * M.val ≤ a.val * P.val := (Int.le_ediv_iff_mul_le hM).mp hle
      obtain ⟨M', hM'⟩ := SdkInt.sub_returns ha.le (show a.val ≤ M.val by omega)
      obtain ⟨P', hP'⟩ := SdkInt.sub_returns hnonneg (hle.trans hfloor)
      have hM'' := SdkInt.sub_ok.mp hM'
      have hP'' := SdkInt.sub_ok.mp hP'
      obtain ⟨more, hmore, hih⟩ := ih hrestpos (by omega) (by omega) (hrest r M' P' hr hM' hP')
      refine ⟨r.val + more, ?_, ?_⟩
      · simp only [burnReturns, checked_bind_ok, pure, Except.pure, Except.ok.injEq]
        exact ⟨r, hr, M', hM', P', hP', more, hmore, rfl⟩
      · rw [hM'', hP''] at hih
        rcases (show 0 ≤ M.val - a.val by omega).eq_or_lt with hz | hleft
        · -- the whole debt was burned, so nothing is left to burn
          have hnil : rest = [] := List.length_eq_zero_iff.mp (by omega)
          subst hnil
          obtain rfl : 0 = more := by simpa [burnReturns] using hmore
          simpa using hshare
        · exact split_le hM.le hleft hsum hshare hih

end Burns

/-- A burn returns at most its exact share, and all of it for the whole debt,
exactly when it fits and does not carry. Burns one after the other that all do so
return at most the exact share of their sum. -/
theorem burn_share_iff (a M P : SdkInt) (ha : 0 < a.val) (haM : a.val ≤ M.val) (hP : 0 ≤ P.val) :
    (SharesExactly a M P ↔ Fits a.val M.val P.val ∧ NoCarry a.val M.val P.val) ∧
    ∀ burns : List SdkInt, (∀ b ∈ burns, 0 < b.val) → (burns.map SdkInt.val).sum ≤ M.val →
      NoCarries burns M P → ∃ total, burnReturns burns M P = .ok total ∧
        total ≤ (burns.map SdkInt.val).sum * P.val / M.val := by
  refine ⟨sharesExactly_iff ha haM hP, ?_⟩
  intro burns hpos hsum hclean
  obtain ⟨total, htotal, hle⟩ := burnReturns_le burns hpos hsum hP hclean
  exact ⟨total, htotal, (Int.le_ediv_iff_mul_le (by omega)).mpr hle⟩

/-- A third of 3000 is within the share. -/
theorem burn_share_iff_third : SharesExactly (.newInt 1) (.newInt 3) (.newInt 3000) :=
  (burn_share_iff (.newInt 1) (.newInt 3) (.newInt 3000) (by decide) (by decide)
    (by decide)).1.mpr (by decide)

/-- Two thirds of `3 * 10¹⁸` come out one unit above the share. -/
theorem two_thirds_carry :
    burnReturn (.newInt 2) (.newInt 3) (.newInt 3000000000000000000) =
        .ok (.newInt 2000000000000000001) ∧
      ¬ SharesExactly (.newInt 2) (.newInt 3) (.newInt 3000000000000000000) := by
  have hreturn : burnReturn (.newInt 2) (.newInt 3) (.newInt 3000000000000000000) =
      .ok (.newInt 2000000000000000001) := by
    decide +kernel
  refine ⟨hreturn, ?_⟩
  rintro ⟨r, hr, -, hle, -⟩
  obtain rfl := Except.ok.inj (hreturn.symm.trans hr)
  exact absurd hle (by decide)

end Zytherion.BurnShare
