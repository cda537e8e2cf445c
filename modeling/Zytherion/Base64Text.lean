import Zytherion.ByteStrings

/-!
# Base64 text

Three bytes become four digits of six bits. A rest of one or two bytes is filled up
with the padding character, which is no digit, so that the text determines the bytes.
-/
namespace Zytherion.Base64Text

/-- The digit of a number below 64. -/
def base64Digit (n : ℕ) : Char :=
  if n < 26 then Char.ofNat (65 + n)
  else if n < 52 then Char.ofNat (71 + n)
  else if n < 62 then Char.ofNat (n - 4)
  else if n = 62 then '+' else '/'

def base64Digits : List UInt8 → List Char
  | [] => []
  | [a] => [base64Digit (a.toNat / 4), base64Digit (a.toNat % 4 * 16), '=', '=']
  | [a, b] => [base64Digit (a.toNat / 4), base64Digit (a.toNat % 4 * 16 + b.toNat / 16),
      base64Digit (b.toNat % 16 * 4), '=']
  | a :: b :: c :: rest => base64Digit (a.toNat / 4) ::
      base64Digit (a.toNat % 4 * 16 + b.toNat / 16) ::
      base64Digit (b.toNat % 16 * 4 + c.toNat / 64) :: base64Digit (c.toNat % 64) ::
      base64Digits rest

/-- `base64.StdEncoding`, in which `json.Marshal` writes bytes. -/
def encodeBase64 (b : List UInt8) : String := String.ofList (base64Digits b)

def base64Value (c : Char) : ℕ :=
  if 'A' ≤ c ∧ c ≤ 'Z' then c.toNat - 65
  else if 'a' ≤ c ∧ c ≤ 'z' then c.toNat - 71
  else if '0' ≤ c ∧ c ≤ '9' then c.toNat + 4
  else if c = '+' then 62 else 63

/-- The bytes of a text that was encoded. -/
def base64Bytes : List Char → List UInt8
  | p :: q :: r :: s :: rest =>
      let first := UInt8.ofNat (base64Value p * 4 + base64Value q / 16)
      let second := UInt8.ofNat (base64Value q % 16 * 16 + base64Value r / 4)
      if r = '=' then [first]
      else if s = '=' then [first, second]
      else first :: second :: UInt8.ofNat (base64Value r % 4 * 64 + base64Value s) ::
        base64Bytes rest
  | _ => []

theorem base64Digit_facts {n : ℕ} (hn : n < 64) : base64Value (base64Digit n) = n ∧
    base64Digit n ≠ '=' ∧ base64Digit n ≠ '"' := by
  have hfin : ∀ i : Fin 64, base64Value (base64Digit i) = i.val ∧
    base64Digit i ≠ '=' ∧ base64Digit i ≠ '"' := by decide +kernel
  exact hfin ⟨n, hn⟩

theorem base64Bytes_digits (b : List UInt8) : base64Bytes (base64Digits b) = b := by
  have hvalue : ∀ {n : ℕ}, n < 64 → base64Value (base64Digit n) = n := fun hn =>
    (base64Digit_facts hn).1
  have hdigit : ∀ {n : ℕ}, n < 64 → base64Digit n ≠ '=' := fun hn => (base64Digit_facts hn).2.1
  fun_induction base64Digits b with
  | case1 => rfl
  | case2 a =>
      have ha := a.toNat_lt
      have hfirst : a.toNat / 4 * 4 + a.toNat % 4 * 16 / 16 = a.toNat := by omega
      simp only [base64Bytes, ↓reduceIte]
      rw [hvalue (by omega), hvalue (by omega), hfirst, UInt8.ofNat_toNat]
  | case3 a b =>
      have ha := a.toNat_lt
      have hb := b.toNat_lt
      have hfirst : a.toNat / 4 * 4 + (a.toNat % 4 * 16 + b.toNat / 16) / 16 = a.toNat := by omega
      have hsecond : (a.toNat % 4 * 16 + b.toNat / 16) % 16 * 16 + b.toNat % 16 * 4 / 4 =
        b.toNat := by omega
      simp only [base64Bytes, ↓reduceIte]
      rw [if_neg (hdigit (by omega)), hvalue (by omega), hvalue (by omega), hvalue (by omega),
        hfirst, hsecond, UInt8.ofNat_toNat, UInt8.ofNat_toNat]
  | case4 a b c rest ih =>
      have ha := a.toNat_lt
      have hb := b.toNat_lt
      have hc := c.toNat_lt
      have hfirst : a.toNat / 4 * 4 + (a.toNat % 4 * 16 + b.toNat / 16) / 16 = a.toNat := by omega
      have hsecond : (a.toNat % 4 * 16 + b.toNat / 16) % 16 * 16 +
        (b.toNat % 16 * 4 + c.toNat / 64) / 4 = b.toNat := by omega
      have hthird : (b.toNat % 16 * 4 + c.toNat / 64) % 4 * 64 + c.toNat % 64 = c.toNat := by omega
      simp only [base64Bytes]
      rw [if_neg (hdigit (by omega)), if_neg (hdigit (by omega)), hvalue (by omega),
        hvalue (by omega), hvalue (by omega), hvalue (by omega), hfirst, hsecond, hthird, ih,
        UInt8.ofNat_toNat, UInt8.ofNat_toNat, UInt8.ofNat_toNat]

theorem encodeBase64_inj {b c : List UInt8} (h : encodeBase64 b = encodeBase64 c) : b = c := by
  have hdigits : base64Digits b = base64Digits c := String.ofList_injective h
  rw [← base64Bytes_digits b, hdigits, base64Bytes_digits]

/-- No digit closes a quoted text. -/
theorem quote_notMem_encodeBase64 (b : List UInt8) : '"' ∉ (encodeBase64 b).toList := by
  have hdigit : ∀ {n : ℕ}, n < 64 → '"' ≠ base64Digit n := fun hn =>
    (base64Digit_facts hn).2.2.symm
  rw [encodeBase64, String.toList_ofList]
  fun_induction base64Digits b with
  | case1 => simp
  | case2 a =>
      have ha := a.toNat_lt
      simp [hdigit (show a.toNat / 4 < 64 by omega), hdigit (show a.toNat % 4 * 16 < 64 by omega)]
  | case3 a b =>
      have ha := a.toNat_lt
      have hb := b.toNat_lt
      simp [hdigit (show a.toNat / 4 < 64 by omega),
        hdigit (show a.toNat % 4 * 16 + b.toNat / 16 < 64 by omega),
        hdigit (show b.toNat % 16 * 4 < 64 by omega)]
  | case4 a b c rest ih =>
      have ha := a.toNat_lt
      have hb := b.toNat_lt
      have hc := c.toNat_lt
      simp [hdigit (show a.toNat / 4 < 64 by omega),
        hdigit (show a.toNat % 4 * 16 + b.toNat / 16 < 64 by omega),
        hdigit (show b.toNat % 16 * 4 + c.toNat / 64 < 64 by omega),
        hdigit (show c.toNat % 64 < 64 by omega), ih]

end Zytherion.Base64Text
