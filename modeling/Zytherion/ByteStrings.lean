import Zytherion.GoCall
import Zytherion.KeyedStore
import Mathlib.Data.List.Induction
import Mathlib.Data.Fintype.Basic
import Mathlib.Tactic.Ring

/-!
# Byte strings

Big-endian words of a fixed width and the numbers they stand for are inverse to
each other. A slice of a byte string panics unless its bounds lie inside the
string. Texts become bytes, and bytes a text of hexadecimal digits. A number is
read back from its decimal text.
-/
namespace Zytherion.ByteStrings

open GoCall KeyedStore

/-- A module's store of byte strings under byte strings. -/
abbrev KVStore : Type := Store (List UInt8) (List UInt8)

/-- The lowest `k` bytes of a number, the highest of them first. -/
def bigEndian : ℕ → ℕ → List UInt8
  | 0, _ => []
  | k + 1, n => bigEndian k (n / 256) ++ [UInt8.ofNat n]

/-- The number a byte string stands for. -/
def bigEndianValue (b : List UInt8) : ℕ := b.foldl (fun n x => 256 * n + x.toNat) 0

@[simp] theorem bigEndian_length (k n : ℕ) : (bigEndian k n).length = k := by
  induction k generalizing n with
  | zero => rfl
  | succ k ih => rw [bigEndian, List.length_append, ih, List.length_singleton]

theorem bigEndianValue_snoc (b : List UInt8) (x : UInt8) :
    bigEndianValue (b ++ [x]) = 256 * bigEndianValue b + x.toNat := List.foldl_append ..

theorem bigEndianValue_bigEndian {k n : ℕ} (h : n < 256 ^ k) :
    bigEndianValue (bigEndian k n) = n := by
  induction k generalizing n with
  | zero =>
      have hzero : n = 0 := by simpa using h
      rw [hzero]
      rfl
  | succ k ih =>
      have hhigh : n / 256 < 256 ^ k := by
        rw [Nat.div_lt_iff_lt_mul (by decide), ← pow_succ]
        exact h
      rw [bigEndian, bigEndianValue_snoc, ih hhigh, UInt8.toNat_ofNat']
      omega

theorem bigEndian_bigEndianValue (b : List UInt8) :
    bigEndian b.length (bigEndianValue b) = b := by
  induction b using List.reverseRecOn with
  | nil => rfl
  | append_singleton b x ih =>
      have hx : x.toNat < 256 := x.toNat_lt
      have hhigh : (256 * bigEndianValue b + x.toNat) / 256 = bigEndianValue b := by omega
      have hlow : UInt8.ofNat (256 * bigEndianValue b + x.toNat) = x := by
        apply UInt8.toNat_inj.mp
        rw [UInt8.toNat_ofNat']
        omega
      rw [List.length_append, List.length_singleton, bigEndianValue_snoc, bigEndian, hhigh, hlow,
        ih]

theorem bigEndian_of_length {k : ℕ} {b : List UInt8} (h : b.length = k) :
    bigEndian k (bigEndianValue b) = b := by
  rw [← h, bigEndian_bigEndianValue]

theorem bigEndianValue_lt (b : List UInt8) : bigEndianValue b < 256 ^ b.length := by
  induction b using List.reverseRecOn with
  | nil => exact Nat.one_pos
  | append_singleton b x ih =>
      have hx : x.toNat < 256 := x.toNat_lt
      rw [List.length_append, List.length_singleton, bigEndianValue_snoc, pow_succ]
      omega

theorem bigEndianValue_lt_of_length {k : ℕ} {b : List UInt8} (h : b.length = k) :
    bigEndianValue b < 256 ^ k := h ▸ bigEndianValue_lt b

/-- `b[lo:hi]`. -/
def slice (b : List UInt8) (lo hi : ℕ) : Checked (List UInt8) :=
  if lo ≤ hi ∧ hi ≤ b.length then .ok ((b.drop lo).take (hi - lo))
  else .error "slice bounds out of range"

theorem slice_ok {b c : List UInt8} {lo hi : ℕ} (hlo : lo ≤ hi) :
    slice b lo hi = .ok c ↔ hi ≤ b.length ∧ (b.drop lo).take (hi - lo) = c := by
  unfold slice
  split_ifs with h
  · simp [h.2]
  · have hhi : ¬ hi ≤ b.length := fun hhi => h ⟨hlo, hhi⟩
    simp [hhi]

theorem slice_eq {b : List UInt8} {lo hi : ℕ} (hlo : lo ≤ hi) (hhi : hi ≤ b.length) :
    slice b lo hi = .ok ((b.drop lo).take (hi - lo)) := (slice_ok hlo).mpr ⟨hhi, rfl⟩

theorem slice_zero {b : List UInt8} {k : ℕ} (h : k ≤ b.length) : slice b 0 k = .ok (b.take k) := by
  rw [slice_eq (Nat.zero_le k) h, List.drop_zero, Nat.sub_zero]

theorem slice_fails {b : List UInt8} {lo hi : ℕ} (hhi : b.length < hi) :
    slice b lo hi = .error "slice bounds out of range" := if_neg fun h => absurd h.2 (by omega)

/-- Cutting a field off the rest of a string. -/
theorem drop_eq_field (b : List UInt8) (i k : ℕ) :
    b.drop i = (b.drop i).take k ++ b.drop (i + k) := by
  rw [← List.drop_drop, List.take_append_drop]

/-- A string cut into pieces of one length, and joined again. -/
theorem flatten_chunks (b : List UInt8) (size n : ℕ) :
    ((List.range n).map fun i => (b.drop (i * size)).take size).flatten = b.take (n * size) := by
  induction n with
  | zero => simp
  | succ n ih =>
      rw [List.range_succ, List.map_append, List.flatten_append, ih, Nat.succ_mul, List.take_add]
      simp

/-- What a zeroed buffer of `k` bytes holds after `copy`. -/
def copied (k : ℕ) (b : List UInt8) : List UInt8 := (b ++ List.replicate k 0).take k

@[simp] theorem copied_length (k : ℕ) (b : List UInt8) : (copied k b).length = k := by
  simp [copied]

theorem copied_of_length {k : ℕ} {b : List UInt8} (h : b.length = k) : copied k b = b := by
  rw [copied, List.take_append_of_le_length h.ge, List.take_of_length_le h.le]

/-- `zeroPad32`: padded or cut to 32 bytes. -/
def zeroPad32 (b : List UInt8) : List UInt8 := copied 32 b

@[simp] theorem zeroPad32_length (b : List UInt8) : (zeroPad32 b).length = 32 := copied_length 32 b

/-! The bytes of a text. -/

/-- `[]byte(s)`. -/
def utf8 (s : String) : List UInt8 := s.toUTF8.toList

private theorem toList_loop (bytes : ByteArray) (i : ℕ) (acc : List UInt8) :
    ByteArray.toList.loop bytes i acc = acc.reverse ++ bytes.data.toList.drop i := by
  induction h : bytes.size - i generalizing i acc with
  | zero =>
      have hi : bytes.data.toList.length ≤ i := by
        simpa using Nat.le_of_sub_eq_zero h
      rw [ByteArray.toList.loop.eq_1, if_neg (by omega), List.drop_eq_nil_of_le hi,
        List.append_nil]
  | succ k ih =>
      have hi : i < bytes.size := by omega
      have hlt : i < bytes.data.toList.length := hi
      have hget : bytes.get! i = bytes.data.toList[i] := by
        show bytes.data[i]! = _
        rw [getElem!_pos bytes.data i hi, Array.getElem_toList]
      rw [ByteArray.toList.loop.eq_1, if_pos hi, ih (i + 1) _ (by omega), hget,
        List.drop_eq_getElem_cons hlt]
      simp

theorem byteArray_toList (bytes : ByteArray) : bytes.toList = bytes.data.toList := by
  rw [ByteArray.toList.eq_1, toList_loop]
  simp

theorem utf8_inj {d e : String} (h : d.toUTF8.toList = e.toUTF8.toList) : d = e := by
  rw [byteArray_toList, byteArray_toList, Array.toList_inj] at h
  have hbytes : d.toUTF8 = e.toUTF8 := ByteArray.ext h
  rwa [String.toUTF8_eq_toByteArray, String.toUTF8_eq_toByteArray, String.toByteArray_inj] at hbytes

/-- Labels that differ in their first bytes keep keys apart. -/
theorem labelled_ne {label other x y : List UInt8} (k : ℕ) (hlabel : k ≤ label.length)
    (hother : k ≤ other.length) (h : label.take k ≠ other.take k) : label ++ x ≠ other ++ y := by
  intro heq
  have htake := congrArg (List.take k) heq
  rw [List.take_append_of_le_length hlabel, List.take_append_of_le_length hother] at htake
  exact h htake

/-! Hexadecimal text. -/

def hexDigit (n : ℕ) : Char := if n < 10 then Char.ofNat (48 + n) else Char.ofNat (87 + n)

/-- `hex.EncodeToString`. -/
def encodeToString (b : List UInt8) : String :=
  String.ofList (b.flatMap fun x => [hexDigit (x.toNat / 16), hexDigit (x.toNat % 16)])

def hexValue (c : Char) : Option ℕ :=
  if '0' ≤ c ∧ c ≤ '9' then some (c.toNat - 48)
  else if 'a' ≤ c ∧ c ≤ 'f' then some (c.toNat - 87)
  else if 'A' ≤ c ∧ c ≤ 'F' then some (c.toNat - 55)
  else none

def decodeDigits : List Char → Option (List UInt8)
  | [] => some []
  | [_] => none
  | high :: low :: rest =>
      match hexValue high, hexValue low, decodeDigits rest with
      | some h, some l, some bytes => some (UInt8.ofNat (16 * h + l) :: bytes)
      | _, _, _ => none

/-- `hex.DecodeString`, without the error's text. -/
def decodeString (s : String) : Option (List UInt8) := decodeDigits s.toList

theorem hexValue_hexDigit {n : ℕ} (hn : n < 16) : hexValue (hexDigit n) = some n := by
  have hfin : ∀ i : Fin 16, hexValue (hexDigit i) = some i.val := by decide
  exact hfin ⟨n, hn⟩

@[simp] theorem decodeString_encodeToString (b : List UInt8) :
    decodeString (encodeToString b) = some b := by
  rw [decodeString, encodeToString, String.toList_ofList]
  induction b with
  | nil => rfl
  | cons x b ih =>
      have hx : x.toNat < 256 := x.toNat_lt
      have hbyte : 16 * (x.toNat / 16) + x.toNat % 16 = x.toNat := by omega
      rw [List.flatMap_cons]
      simp only [List.cons_append, List.nil_append, decodeDigits,
        hexValue_hexDigit (show x.toNat / 16 < 16 by omega),
        hexValue_hexDigit (show x.toNat % 16 < 16 by omega), ih, hbyte, UInt8.ofNat_toNat]

theorem encodeToString_inj {b c : List UInt8} (h : encodeToString b = encodeToString c) :
    b = c := by
  have hdecoded := decodeString_encodeToString b
  rw [h, decodeString_encodeToString] at hdecoded
  exact (Option.some.inj hdecoded).symm

theorem encodeToString_length (b : List UInt8) :
    (encodeToString b).toList.length = 2 * b.length := by
  rw [encodeToString, String.toList_ofList]
  induction b with
  | nil => rfl
  | cons x b ih =>
      rw [List.flatMap_cons, List.length_append, ih, List.length_cons]
      simp only [List.length_cons, List.length_nil]
      omega

theorem encodeToString_digits (b : List UInt8) :
    ∀ c ∈ (encodeToString b).toList, (hexValue c).isSome := by
  intro c hc
  rw [encodeToString, String.toList_ofList] at hc
  obtain ⟨x, -, hx⟩ := List.mem_flatMap.mp hc
  have hlt : x.toNat < 256 := x.toNat_lt
  rcases List.mem_pair.mp hx with rfl | rfl
  · rw [hexValue_hexDigit (by omega)]
    rfl
  · rw [hexValue_hexDigit (by omega)]
    rfl

/-! Numbers from their decimal texts. -/

/-- The values of an `int`. -/
def IsInt (i : ℤ) : Prop := -2 ^ 63 ≤ i ∧ i < 2 ^ 63

instance (i : ℤ) : Decidable (IsInt i) := inferInstanceAs (Decidable (_ ∧ _))

def parseDigits (digits : List Char) : Option ℕ :=
  if digits ≠ [] ∧ digits.all Char.isDigit then some (Nat.ofDigitChars 10 digits 0) else none

def isSign (c : Char) : Bool := c == '-' || c == '+'

def withoutSign (cs : List Char) : List Char := if cs.head?.any isSign then cs.tail else cs

def inRange (i : ℤ) : Option ℤ := if IsInt i then some i else none

def signed (negative : Bool) (n : ℕ) : Option ℤ := inRange (if negative then -n else n)

/-- `strconv.Atoi`, without the error's text. -/
def atoi (s : String) : Option ℤ :=
  (parseDigits (withoutSign s.toList)).bind (signed (s.toList.head? == some '-'))

theorem inRange_eq {i : ℤ} (h : IsInt i) : inRange i = some i := if_pos h

theorem parseDigits_repr (n : ℕ) : parseDigits (Nat.repr n).toList = some n := by
  have hne : (Nat.repr n).toList ≠ [] := fun h =>
    Nat.repr_ne_empty (String.toList_inj.mp (h.trans String.toList_empty.symm))
  have hdigits : (Nat.repr n).toList.all Char.isDigit = true :=
    List.all_eq_true.mpr fun _ hc => isDigit_of_mem_repr hc
  rw [parseDigits, if_pos ⟨hne, hdigits⟩, Nat.repr_eq_ofList_toDigits, String.toList_ofList,
    Nat.ofDigitChars_ten_toDigits]

theorem isSign_of_isDigit {c : Char} (h : c.isDigit = true) : isSign c = false := by
  by_contra hsign
  rw [Bool.not_eq_false, isSign, Bool.or_eq_true, beq_iff_eq, beq_iff_eq] at hsign
  rcases hsign with rfl | rfl
  · exact absurd h (by decide)
  · exact absurd h (by decide)

/-- The first character of a number without a sign is not a sign. -/
theorem head_repr (n : ℕ) : (Nat.repr n).toList.head?.any isSign = false := by
  cases hdigits : (Nat.repr n).toList with
  | nil => rfl
  | cons c rest =>
      exact isSign_of_isDigit (isDigit_of_mem_repr (hdigits ▸ List.mem_cons_self))

theorem atoi_unsigned {s : String} {n : ℕ} (hsign : s.toList.head?.any isSign = false)
    (hdigits : parseDigits s.toList = some n) (h : IsInt n) : atoi s = some (n : ℤ) := by
  have hpositive : (s.toList.head? == some '-') = false := by
    rw [beq_eq_false_iff_ne]
    intro heq
    rw [heq] at hsign
    exact absurd hsign (by decide)
  have hrest : withoutSign s.toList = s.toList := by
    rw [withoutSign, hsign]
    rfl
  rw [atoi, hrest, hdigits, hpositive, Option.bind_some]
  exact inRange_eq h

theorem atoi_negative {s : String} {digits : List Char} {n : ℕ} (hs : s.toList = '-' :: digits)
    (hdigits : parseDigits digits = some n) (h : IsInt (-n)) : atoi s = some (-n : ℤ) := by
  have hrest : withoutSign ('-' :: digits) = digits := rfl
  have hnegative : (('-' :: digits).head? == some '-') = true := rfl
  rw [atoi, hs, hrest, hdigits, hnegative, Option.bind_some]
  exact inRange_eq h

theorem atoi_toString {i : ℤ} (h : IsInt i) : atoi (toString i) = some i := by
  cases i with
  | ofNat n => exact atoi_unsigned (head_repr n) (parseDigits_repr n) h
  | negSucc n => exact atoi_negative (toString_negSucc n) (parseDigits_repr (n + 1)) h

end Zytherion.ByteStrings
