import Zytherion.GoCall
import Zytherion.HalfEven
import Mathlib.Algebra.Order.Field.Basic
import Mathlib.Algebra.Order.Field.Rat

/-!
# The integers and decimals of the SDK

`SdkInt` is `sdk.Int`: an integer whose magnitude has at most 256 bits. The
bound is a field, so no operation can return a wider one; an operation whose
exact result is wider panics. `Dec` is `sdk.Dec`, a raw integer counting
10⁻¹⁸. Products and quotients are rounded half to even and panic past 315 bits,
conversion to an integer truncates.

Every operation has one inversion law that says when it returns and what.
-/
namespace Zytherion.SdkMath

open GoCall HalfEven

/-- A difference of 64-bit integers that does not wrap. -/
theorem toInt_sub_eq {a b : Int64} (hlo : -2 ^ 63 ≤ a.toInt - b.toInt)
    (hhi : a.toInt - b.toInt < 2 ^ 63) : (a - b).toInt = a.toInt - b.toInt := by
  rw [Int64.toInt_sub]
  exact Int.bmod_eq_of_le (by omega) (by omega)

/-- Magnitudes of `sdk.Int` stay below this. -/
def intBound : ℕ := 2 ^ 256

/-- Raw magnitudes of checked `sdk.Dec` results stay below this: 256 bits and
the 59 that truncation is sure to remove. -/
def decBound : ℕ := 2 ^ 256 * 2 ^ 59

structure SdkInt where
  val : ℤ
  width : val.natAbs < intBound
deriving DecidableEq

namespace SdkInt

instance : Repr SdkInt := ⟨fun i p => reprPrec i.val p⟩

instance : ToString SdkInt := ⟨fun i => toString i.val⟩

theorem ext_val {a b : SdkInt} (h : a.val = b.val) : a = b := by
  cases a
  cases b
  simpa using h

theorem lt_bound (a : SdkInt) : a.val < intBound := by
  have h := a.width
  omega

def zero : SdkInt := ⟨0, by decide⟩

def newInt (n : Int64) : SdkInt where
  val := n.toInt
  width := by
    have hlow := n.le_toInt
    have hhigh := n.toInt_lt
    unfold intBound
    omega

@[simp] theorem zero_val : zero.val = 0 := rfl

@[simp] theorem newInt_val (n : Int64) : (newInt n).val = n.toInt := rfl

/-- The bound every operation checks before it returns. -/
def checked (v : ℤ) : Checked SdkInt :=
  if h : v.natAbs < intBound then .ok ⟨v, h⟩ else .error "Int overflow"

def add (a b : SdkInt) : Checked SdkInt := checked (a.val + b.val)

def sub (a b : SdkInt) : Checked SdkInt := checked (a.val - b.val)

def neg (a : SdkInt) : SdkInt := ⟨-a.val, by simpa using a.width⟩

def isZero (a : SdkInt) : Bool := a.val == 0

def isPositive (a : SdkInt) : Bool := decide (0 < a.val)

def isNegative (a : SdkInt) : Bool := decide (a.val < 0)

def gt (a b : SdkInt) : Bool := decide (b.val < a.val)

/-- The `if x.IsNegative() { x = sdk.ZeroInt() }` that follows several subtractions. -/
def clampNegative (a : SdkInt) : SdkInt := if a.isNegative then zero else a

/-- The `if x.GT(bound) { x = bound }` of the liquidation amounts. -/
def capAt (a bound : SdkInt) : SdkInt := if a.gt bound then bound else a

variable {a b c : SdkInt} {v : ℤ}

@[simp] theorem checked_ok : checked v = .ok c ↔ c.val = v := by
  unfold checked
  split_ifs with h
  · constructor
    · rintro ⟨⟩
      rfl
    · intro hc
      exact congrArg Except.ok (ext_val hc.symm)
  · refine iff_of_false (by simp) ?_
    rintro rfl
    exact h c.width

theorem checked_returns (h : v.natAbs < intBound) : checked v = .ok ⟨v, h⟩ := by
  simp [checked, h]

@[simp] theorem add_ok : a.add b = .ok c ↔ c.val = a.val + b.val := checked_ok

@[simp] theorem sub_ok : a.sub b = .ok c ↔ c.val = a.val - b.val := checked_ok

theorem sub_returns (hb : 0 ≤ b.val) (hle : b.val ≤ a.val) : ∃ c, a.sub b = .ok c := by
  have hw : (a.val - b.val).natAbs < intBound := by
    have h := a.lt_bound
    omega
  exact ⟨_, checked_returns hw⟩

@[simp] theorem neg_val (a : SdkInt) : a.neg.val = -a.val := rfl

@[simp] theorem isZero_iff : a.isZero = true ↔ a.val = 0 := by simp [isZero]

@[simp] theorem isPositive_iff : a.isPositive = true ↔ 0 < a.val := by simp [isPositive]

@[simp] theorem isNegative_iff : a.isNegative = true ↔ a.val < 0 := by simp [isNegative]

@[simp] theorem gt_iff : a.gt b = true ↔ b.val < a.val := by simp [gt]

@[simp] theorem isZero_eq_false : a.isZero = false ↔ a.val ≠ 0 := by simp [isZero]

@[simp] theorem isPositive_eq_false : a.isPositive = false ↔ a.val ≤ 0 := by simp [isPositive]

@[simp] theorem isNegative_eq_false : a.isNegative = false ↔ 0 ≤ a.val := by simp [isNegative]

@[simp] theorem gt_eq_false : a.gt b = false ↔ a.val ≤ b.val := by simp [gt]

theorem clampNegative_val (a : SdkInt) : a.clampNegative.val = max 0 a.val := by
  unfold clampNegative
  split_ifs with h
  · rw [isNegative_iff] at h
    rw [zero_val]
    omega
  · rw [isNegative_iff] at h
    omega

theorem capAt_val (a b : SdkInt) : (a.capAt b).val = min a.val b.val := by
  unfold capAt
  split_ifs with h
  · rw [gt_iff] at h
    omega
  · rw [gt_iff] at h
    omega

end SdkInt

/-- The decimal that counts `raw` steps of 10⁻¹⁸. -/
structure Dec where
  raw : ℤ
deriving DecidableEq, Repr

/-- Raw units per whole one. -/
def precision : ℤ := 10 ^ 18

theorem precision_eq : precision = 1000000000000000000 := by decide

theorem precision_pos : 0 < precision := by decide

def chopPrecisionAndRound (d : ℤ) : ℤ :=
  if d < 0 then -halfEven precision (-d) else halfEven precision d

theorem chop_of_nonneg {d : ℤ} (h : 0 ≤ d) :
    chopPrecisionAndRound d = halfEven precision d := by
  simp [chopPrecisionAndRound, not_lt.mpr h]

namespace Dec

/-- The number a decimal stands for. -/
def value (d : Dec) : ℚ := d.raw / precision

instance : ToString Dec := ⟨fun d => toString d.raw⟩

def one : Dec := ⟨precision⟩

/-- `sdk.NewDecWithPrec`: `n` units of the `p`-th decimal. -/
def newDecWithPrec (n : ℤ) (p : ℕ) : Dec := ⟨n * 10 ^ (18 - p)⟩

/-- `sdk.NewDecFromInt`, which checks no bound. -/
def ofInt (n : SdkInt) : Dec := ⟨n.val * precision⟩

def checked (v : ℤ) : Checked Dec :=
  if v.natAbs < decBound then .ok ⟨v⟩ else .error "Int overflow"

def add (a b : Dec) : Checked Dec := checked (a.raw + b.raw)

def sub (a b : Dec) : Checked Dec := checked (a.raw - b.raw)

def mul (a b : Dec) : Checked Dec := checked (chopPrecisionAndRound (a.raw * b.raw))

def mulInt (a : Dec) (n : SdkInt) : Checked Dec := checked (a.raw * n.val)

def quo (a b : Dec) : Checked Dec :=
  if b.raw = 0 then .error "division by zero"
  else checked (chopPrecisionAndRound ((a.raw * (precision * precision)).tdiv b.raw))

def truncateInt (a : Dec) : Checked SdkInt := SdkInt.checked (a.raw.tdiv precision)

def gte (a b : Dec) : Bool := decide (b.raw ≤ a.raw)

variable {a b c : Dec} {n : SdkInt} {v : ℤ}

@[simp] theorem ofInt_raw (n : SdkInt) : (ofInt n).raw = n.val * precision := rfl

@[simp] theorem one_raw : one.raw = precision := rfl

theorem checked_ok : checked v = .ok c ↔ c.raw = v ∧ v.natAbs < decBound := by
  unfold checked
  split_ifs with h
  · constructor
    · rintro ⟨⟩
      exact ⟨rfl, h⟩
    · rintro ⟨hc, -⟩
      cases c
      exact congrArg Except.ok (congrArg Dec.mk hc.symm)
  · simp [h]

theorem add_ok : a.add b = .ok c ↔ c.raw = a.raw + b.raw ∧ (a.raw + b.raw).natAbs < decBound :=
  checked_ok

theorem mul_ok : a.mul b = .ok c ↔ c.raw = chopPrecisionAndRound (a.raw * b.raw) ∧
    (chopPrecisionAndRound (a.raw * b.raw)).natAbs < decBound :=
  checked_ok

theorem mulInt_ok :
    a.mulInt n = .ok c ↔ c.raw = a.raw * n.val ∧ (a.raw * n.val).natAbs < decBound :=
  checked_ok

theorem quo_ok : a.quo b = .ok c ↔ b.raw ≠ 0 ∧
    c.raw = chopPrecisionAndRound ((a.raw * (precision * precision)).tdiv b.raw) ∧
    (chopPrecisionAndRound ((a.raw * (precision * precision)).tdiv b.raw)).natAbs < decBound := by
  unfold quo
  split_ifs with h
  · simp [h]
  · simp [h, checked_ok]

@[simp] theorem truncateInt_ok : a.truncateInt = .ok n ↔ n.val = a.raw.tdiv precision :=
  SdkInt.checked_ok

@[simp] theorem gte_iff : a.gte b = true ↔ b.raw ≤ a.raw := by simp [gte]

/-- Multiples of decimals compare like the multiples of their raw values. -/
theorem mul_value_le_iff (m n : ℤ) (a b : Dec) :
    m * a.value ≤ n * b.value ↔ m * a.raw ≤ n * b.raw := by
  have hE : (0 : ℚ) < precision := by exact_mod_cast precision_pos
  unfold value
  rw [← mul_div_assoc, ← mul_div_assoc, div_le_div_iff_of_pos_right hE]
  exact_mod_cast Iff.rfl

/-- A quotient of at most `m` returns when `m` is within the bound. -/
theorem quo_returns {m : ℤ} (ha : 0 ≤ a.raw) (hb : 0 < b.raw)
    (hm : a.raw * precision ≤ m * b.raw) (hlt : m < decBound) :
    ∃ c, a.quo b = .ok c ∧ 0 ≤ c.raw ∧ c.raw ≤ m := by
  have hE := precision_pos
  have hnum : 0 ≤ a.raw * (precision * precision) := mul_nonneg ha (mul_nonneg hE.le hE.le)
  have hdiv : 0 ≤ a.raw * (precision * precision) / b.raw := Int.ediv_nonneg hnum hb.le
  have hle : a.raw * (precision * precision) / b.raw ≤ m * precision := by
    apply Int.ediv_le_of_le_mul hb
    calc a.raw * (precision * precision) = a.raw * precision * precision := by ring
      _ ≤ m * b.raw * precision := mul_le_mul_of_nonneg_right hm hE.le
      _ = m * precision * b.raw := by ring
  have hround := halfEven_mono hE hle
  rw [halfEven_mul_self hE] at hround
  have hnn := halfEven_nonneg hE hdiv
  refine ⟨⟨halfEven precision (a.raw * (precision * precision) / b.raw)⟩, ?_, hnn, hround⟩
  rw [quo_ok, Int.tdiv_eq_ediv_of_nonneg hnum, chop_of_nonneg hdiv]
  exact ⟨hb.ne', rfl, by omega⟩

theorem quo_raw (ha : 0 ≤ a.raw) (hb : 0 < b.raw) (h : a.quo b = .ok c) :
    c.raw = halfEven precision (a.raw * (precision * precision) / b.raw) := by
  have hE := precision_pos
  have hnum : 0 ≤ a.raw * (precision * precision) := mul_nonneg ha (mul_nonneg hE.le hE.le)
  obtain ⟨-, hc, -⟩ := quo_ok.mp h
  rw [hc, Int.tdiv_eq_ediv_of_nonneg hnum, chop_of_nonneg (Int.ediv_nonneg hnum hb.le)]

theorem le_quo {lo : ℤ} (ha : 0 ≤ a.raw) (hb : 0 < b.raw) (h : a.quo b = .ok c)
    (hlo : lo * b.raw ≤ a.raw * precision) : lo ≤ c.raw := by
  have hE := precision_pos
  rw [quo_raw ha hb h, ← halfEven_mul_self (m := lo) hE]
  apply halfEven_mono hE
  rw [Int.le_ediv_iff_mul_le hb]
  calc lo * precision * b.raw = lo * b.raw * precision := by ring
    _ ≤ a.raw * precision * precision := mul_le_mul_of_nonneg_right hlo hE.le
    _ = a.raw * (precision * precision) := by ring

theorem quo_le {hi : ℤ} (ha : 0 ≤ a.raw) (hb : 0 < b.raw) (h : a.quo b = .ok c)
    (hhi : a.raw * precision ≤ hi * b.raw) : c.raw ≤ hi := by
  have hE := precision_pos
  rw [quo_raw ha hb h, ← halfEven_mul_self (m := hi) hE]
  apply halfEven_mono hE
  apply Int.ediv_le_of_le_mul hb
  calc a.raw * (precision * precision) = a.raw * precision * precision := by ring
    _ ≤ hi * b.raw * precision := mul_le_mul_of_nonneg_right hhi hE.le
    _ = hi * precision * b.raw := by ring

/-- A quotient between two whole numbers of raw units is rounded to one between them. -/
theorem quo_between {lo hi : ℤ} (ha : 0 ≤ a.raw) (hb : 0 < b.raw) (h : a.quo b = .ok c)
    (hlo : lo * b.raw ≤ a.raw * precision) (hhi : a.raw * precision ≤ hi * b.raw) :
    lo ≤ c.raw ∧ c.raw ≤ hi :=
  ⟨le_quo ha hb h hlo, quo_le ha hb h hhi⟩

/-- Adding a fraction of at least `lo` to one whose quotient is at least `lo` gives
a quotient of at least `lo`, although the first may owe it to its rounding. -/
theorem le_quo_of_add {x y q r e : Dec} {lo : ℤ} (ha : 0 ≤ a.raw) (hb : 0 < b.raw)
    (h : a.quo b = .ok c) (hc : lo ≤ c.raw) (hx : 0 ≤ x.raw) (hy : 0 ≤ y.raw)
    (hlo : lo * y.raw ≤ x.raw * precision) (hq : q.raw = a.raw + x.raw)
    (hr : r.raw = b.raw + y.raw) (hquo : q.quo r = .ok e) : lo ≤ e.raw := by
  have hE := precision_pos
  have hrpos : 0 < r.raw := by omega
  rw [quo_raw (by omega) hrpos hquo]
  rw [quo_raw ha hb h] at hc
  -- the quotient before rounding, or the bound where the quotient exceeds it
  set m := min (a.raw * (precision * precision) / b.raw) (lo * precision) with hm
  have hround : lo ≤ halfEven precision m := by
    rcases min_choice (a.raw * (precision * precision) / b.raw) (lo * precision) with h | h
    · rwa [hm, h]
    · rw [hm, h, halfEven_mul_self hE]
  have hfirst : m * b.raw ≤ a.raw * (precision * precision) :=
    (Int.le_ediv_iff_mul_le hb).mp (min_le_left _ _)
  have hsecond : m * y.raw ≤ x.raw * (precision * precision) :=
    calc m * y.raw ≤ lo * precision * y.raw := mul_le_mul_of_nonneg_right (min_le_right _ _) hy
      _ = lo * y.raw * precision := by ring
      _ ≤ x.raw * precision * precision := mul_le_mul_of_nonneg_right hlo hE.le
      _ = x.raw * (precision * precision) := by ring
  apply hround.trans
  apply halfEven_mono hE
  rw [Int.le_ediv_iff_mul_le hrpos, hq, hr, mul_add, add_mul]
  exact add_le_add hfirst hsecond

/-- A decimal within its bound has an integer part. -/
theorem truncateInt_returns (ha : 0 ≤ a.raw) (hlt : a.raw < decBound) :
    ∃ n, a.truncateInt = .ok n ∧ n.val = a.raw / precision := by
  have hbound : (a.raw / precision).natAbs < intBound := by
    have hd : (decBound : ℤ) = 2 ^ 256 * 2 ^ 59 := by norm_num [decBound]
    have hi : (intBound : ℤ) = 2 ^ 256 := by norm_num [intBound]
    rw [precision_eq]
    omega
  exact ⟨⟨_, hbound⟩, truncateInt_ok.mpr (Int.tdiv_eq_ediv_of_nonneg ha).symm, rfl⟩

/-- A whole number times a decimal is exact. -/
theorem chop_ofInt_mul (n : SdkInt) (b : Dec) :
    chopPrecisionAndRound ((ofInt n).raw * b.raw) = n.val * b.raw := by
  have hcomm : (ofInt n).raw * b.raw = n.val * b.raw * precision := by
    rw [ofInt_raw]
    ring
  rw [hcomm]
  unfold chopPrecisionAndRound
  split_ifs with h
  · rw [← neg_mul, halfEven_mul_self precision_pos, neg_neg]
  · exact halfEven_mul_self precision_pos

end Dec

end Zytherion.SdkMath
