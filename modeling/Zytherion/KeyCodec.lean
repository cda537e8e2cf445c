import Zytherion.Application
import Zytherion.WireFormat

/-!
# The wire form of the key messages

A key is written as one field of bytes: a tag, the length in groups of seven bits,
the lowest first, and the key. The groups are written into a buffer of ten bytes and
read back with shifts of 64 bits; an eleventh group is refused, and what the tenth one
has beyond the 64 bits is lost.

Lengths and capacities are values of Go's `int`. Room for the field is made before it
is written, and the capacity of a key within ten bytes of the longest one there is
does not fit. Memory is not limited otherwise.
-/
namespace Zytherion.KeyCodec

open GoCall Application ByteStrings WireFormat

/-! Numbers in groups of seven bits. -/

/-- The loop of `encodeVarint`, with the room that is left in its buffer. -/
def encodeLoop : (room : ℕ) → UInt64 → Checked (List UInt8)
  | 0, _ => .error "index out of range"
  | room + 1, v =>
      if 0x80 ≤ v then do
        let rest ← encodeLoop room (v >>> 7)
        return (v.toUInt8 ||| 0x80) :: rest
      else return [v.toUInt8]

def encodeVarint (v : UInt64) : Checked (List UInt8) := encodeLoop 10 v

/-- `x << s`: what leaves the 64 bits is lost. -/
def shiftLeft (x : UInt64) (s : ℕ) : UInt64 := UInt64.ofNat (x.toNat * 2 ^ s)

/-- The loop of `decodeVarint` at the byte `i`. -/
def decodeLoop (i s : ℕ) (x : UInt64) : List UInt8 → UInt64 × ℤ
  | [] => (0, 0)
  | c :: rest =>
      if i = 10 then (0, -1)
      else if c < 0x80 then (x ||| shiftLeft c.toUInt64 s, i + 1)
      else decodeLoop (i + 1) (s + 7) (x ||| shiftLeft (c &&& 0x7f).toUInt64 s) rest

def decodeVarint (b : List UInt8) : UInt64 × ℤ := decodeLoop 0 0 0 b

/-! The field. -/

def fieldTag : UInt8 := 0x0a

def marshalBytesField1 (b : List UInt8) : Checked (List UInt8) :=
  if b.length = 0 then .ok []
  else do
    let length ← encodeVarint (UInt64.ofNat b.length)
    let capacity := Int64.ofNat (1 + length.length + b.length)
    panicUnless (decide (0 ≤ capacity)) "makeslice: cap out of range"
    return fieldTag :: (length ++ b)

/-- The key behind a length that `n` bytes were read for. -/
def readKey (dAtA : List UInt8) (length : UInt64) (n : ℤ) : Checked (Except Err (List UInt8)) :=
  if n ≤ 0 then .ok (.error (.plain "invalid varint for length"))
  else do
    let dAtA ← slice dAtA n.toNat dAtA.length
    if UInt64.ofNat dAtA.length < length then
      .ok (.error (.plain ("buffer too short: need " ++ toString length.toNat ++
        " bytes, have " ++ toString dAtA.length)))
    else
      let key ← slice dAtA 0 length.toNat
      .ok (.ok key)

def unmarshalBytesField1 (dAtA : List UInt8) : Checked (Except Err (List UInt8)) :=
  match dAtA with
  | [] => .ok (.ok [])
  | tag :: dAtA =>
      if tag ≠ fieldTag then
        .ok (.error (.plain ("unexpected tag byte 0x" ++ encodeToString [tag] ++
          " (expected 0x0a)")))
      else readKey dAtA (decodeVarint dAtA).1 (decodeVarint dAtA).2

section Varints
variable {v w x : UInt64} {room i n : ℕ} {bytes : List UInt8}

/-- The lowest group with the highest bit set. -/
theorem lowest_byte (v : UInt64) : v.toUInt8 ||| 0x80 = UInt8.ofNat (v.toNat % 128 + 128) := by
  have hbits : ∀ b : Fin 256, b.val ||| 128 = b.val % 128 + 128 := by decide +kernel
  have hbyte := hbits ⟨v.toUInt8.toNat, v.toUInt8.toNat_lt⟩
  apply UInt8.toNat_inj.mp
  rw [UInt8.toNat_or, ofNat_byte (by omega)]
  simp only [UInt64.toNat_toUInt8] at hbyte ⊢
  rw [show (0x80 : UInt8).toNat = 128 from rfl, hbyte]
  omega

/-- A number is written in its groups, if there is room for them. -/
theorem encodeLoop_eq (hv : v.toNat < 128 ^ (room + 1)) :
    encodeLoop (room + 1) v = .ok (groups v.toNat) := by
  induction room generalizing v with
  | zero =>
      have hlast : ¬0x80 ≤ v := by
        rw [UInt64.le_iff_toNat_le]
        exact Nat.not_le.mpr hv
      rw [encodeLoop, if_neg hlast, groups_last hv]
      rfl
  | succ room ih =>
      rw [encodeLoop]
      split_ifs with hmore
      · rw [UInt64.le_iff_toNat_le] at hmore
        have hrest : (v >>> 7).toNat < 128 ^ (room + 1) := by
          rw [high_groups, Nat.div_lt_iff_lt_mul (by decide), ← pow_succ]
          exact hv
        rw [ih hrest, high_groups, groups_more hmore, lowest_byte]
        rfl
      · rw [UInt64.le_iff_toNat_le] at hmore
        rw [groups_last (Nat.lt_of_not_le hmore)]
        rfl

theorem encodeVarint_eq (v : UInt64) : encodeVarint v = .ok (groups v.toNat) :=
  encodeLoop_eq (v.toNat_lt.trans (by decide))

/-- What the reader of the generated messages reads is read here as well. -/
theorem decodeLoop_of_readLoop (h : readLoop (7 * i) x bytes = .ok (w, n)) :
    decodeLoop i (7 * i) x bytes = (w, ((i + n : ℕ) : ℤ)) := by
  induction bytes generalizing i x n with
  | nil =>
      rw [readLoop] at h
      split_ifs at h
  | cons c rest ih =>
      rw [readLoop] at h
      split_ifs at h with hfull hlast
      · obtain ⟨rfl, rfl⟩ := Prod.mk.inj (Except.ok.inj h)
        have hgroup : (c &&& 0x7f).toNat = c.toUInt64.toNat := by
          rw [payload_toNat, UInt8.toNat_toUInt64, Nat.mod_eq_of_lt ((group_lt_iff c).mp hlast)]
        rw [decodeLoop, if_neg (by omega), if_pos hlast, shiftLeft, hgroup]
        rfl
      · obtain ⟨⟨w', n'⟩, hrest, heq⟩ := map_ok.mp h
        obtain ⟨rfl, rfl⟩ := Prod.mk.inj heq
        rw [decodeLoop, if_neg (by omega), if_neg hlast, shiftLeft, UInt8.toNat_toUInt64]
        refine (ih hrest).trans (congrArg (Prod.mk w') ?_)
        push_cast
        ring

theorem decodeVarint_groups (v : UInt64) (rest : List UInt8) :
    decodeVarint (groups v.toNat ++ rest) = (v, ((groups v.toNat).length : ℤ)) := by
  have hvarint := groups_varint v.toNat_lt
  have hshort := hvarint.short
  have hread : readLoop (7 * 0) 0 (groups v.toNat ++ rest) = .ok (v, (groups v.toNat).length) :=
    (readLoop_ok Nat.one_pos).mpr ⟨groups v.toNat, rest, rfl, hvarint.terminated, by omega, rfl,
      by simpa using hvarint.value⟩
  have hdecoded := decodeLoop_of_readLoop hread
  rwa [Nat.zero_add] at hdecoded

/-- Between one and ten bytes are read, and no more than there are. -/
theorem decodeLoop_consumed (b : List UInt8) {i s : ℕ} {x : UInt64}
    (h : 0 < (decodeLoop i s x b).2) :
    ∃ n : ℕ, (decodeLoop i s x b).2 = ((i + n : ℕ) : ℤ) ∧ n ≤ b.length := by
  induction b generalizing i s x with
  | nil => exact absurd h (lt_irrefl 0)
  | cons c rest ih =>
      rw [decodeLoop] at h ⊢
      split_ifs at h ⊢ with hten hend
      · exact absurd h (by decide)
      · exact ⟨1, by push_cast; rfl, by simp⟩
      · obtain ⟨n, hn, hle⟩ := ih h
        refine ⟨n + 1, ?_, ?_⟩
        · rw [hn]
          push_cast
          ring
        · rw [List.length_cons]
          omega

end Varints

section Fields
variable {b : List UInt8}

/-- Room is made for the tag, the length and the key. -/
theorem marshal_of_ne (hb : b ≠ []) {length : List UInt8}
    (h : encodeVarint (UInt64.ofNat b.length) = .ok length) :
    marshalBytesField1 b =
      if 0 ≤ Int64.ofNat (1 + length.length + b.length) then .ok (fieldTag :: (length ++ b))
      else .error "makeslice: cap out of range" := by
  have hlength : b.length ≠ 0 := fun hzero => hb (List.length_eq_zero_iff.mp hzero)
  simp only [marshalBytesField1, if_neg hlength, h, checked_ok_bind, panicUnless,
    decide_eq_true_eq]
  split_ifs <;> rfl

theorem capacity_nonneg_iff {n : ℕ} (hn : n < 2 ^ 64) : 0 ≤ Int64.ofNat n ↔ n < 2 ^ 63 := by
  rw [Int64.le_iff_toInt_le, Int64.toInt_ofNat', Int.bmod_def, Int64.toInt_zero]
  simp only [Int64.size]
  omega

theorem length_toNat (hb : b.length < 2 ^ 63) : (UInt64.ofNat b.length).toNat = b.length := by
  rw [UInt64.toNat_ofNat', Nat.mod_eq_of_lt (by omega)]

/-- The capacity fits unless the key is within ten bytes of the greatest length. -/
theorem marshal_eq (hne : b ≠ []) (hb : b.length < 2 ^ 63) :
    marshalBytesField1 b =
      if b.length < 2 ^ 63 - 10 then .ok (fieldTag :: (groups b.length ++ b))
      else .error "makeslice: cap out of range" := by
  have hnine := groups_length_le (v := b.length) (k := 8)
  have height := groups_length_le (v := b.length) (k := 7)
  have hcapacity : 0 ≤ Int64.ofNat (1 + (groups b.length).length + b.length) ↔
      b.length < 2 ^ 63 - 10 := by
    rw [capacity_nonneg_iff (by omega)]
    omega
  have hlength := encodeVarint_eq (UInt64.ofNat b.length)
  rw [length_toNat hb] at hlength
  rw [marshal_of_ne hne hlength]
  simp only [hcapacity]

theorem marshal_panics (hb : b.length < 2 ^ 63) (hlong : 2 ^ 63 - 10 ≤ b.length) :
    marshalBytesField1 b = .error "makeslice: cap out of range" := by
  have hne : b ≠ [] := by
    rintro rfl
    exact absurd hlong (by decide)
  rw [marshal_eq hne hb, if_neg (by omega)]

/-- What follows the length is long enough for the key, or it is not. -/
theorem readKey_eq {dAtA : List UInt8} (length : UInt64) {n : ℕ} (hn : 0 < n)
    (hle : n ≤ dAtA.length) : readKey dAtA length n =
      .ok (if UInt64.ofNat (dAtA.drop n).length < length then
        .error (.plain ("buffer too short: need " ++ toString length.toNat ++
          " bytes, have " ++ toString (dAtA.drop n).length))
      else .ok ((dAtA.drop n).take length.toNat)) := by
  have hrest : slice dAtA n dAtA.length = .ok (dAtA.drop n) := by
    rw [slice_eq hle le_rfl, List.take_of_length_le (by simp)]
  rw [readKey, if_neg (by omega), Int.toNat_natCast, hrest, checked_ok_bind]
  split_ifs with hshort
  · rfl
  · have hfits : length.toNat ≤ (dAtA.drop n).length := by
      rw [UInt64.lt_iff_toNat_lt, UInt64.toNat_ofNat'] at hshort
      exact (Nat.le_of_not_lt hshort).trans (Nat.mod_le _ _)
    rw [slice_zero hfits]
    rfl

theorem unmarshal_marshal (hb : b.length < 2 ^ 63 - 10) :
    ∃ enc, marshalBytesField1 b = .ok enc ∧ unmarshalBytesField1 enc = .ok (.ok b) := by
  by_cases hne : b = []
  · subst hne
    exact ⟨[], rfl, rfl⟩
  · have hlt : b.length < 2 ^ 63 := by omega
    refine ⟨_, (marshal_eq hne hlt).trans (if_pos hb), ?_⟩
    have hle : (groups b.length).length ≤ (groups b.length ++ b).length := by simp
    have hkey := readKey_eq (UInt64.ofNat b.length) (groups_length_pos b.length) hle
    have hdecoded := decodeVarint_groups (UInt64.ofNat b.length) b
    rw [length_toNat hlt] at hdecoded
    rw [unmarshalBytesField1, if_neg (not_not.mpr rfl), hdecoded, hkey, List.drop_left,
      if_neg (UInt64.lt_irrefl _), length_toNat hlt, List.take_length]

/-- Any bytes are refused or hold the key that is returned. -/
theorem unmarshal_returns (dAtA : List UInt8) :
    ∃ r, unmarshalBytesField1 dAtA = .ok r ∧ ∀ key, r = .ok key → key <:+: dAtA := by
  cases dAtA with
  | nil => exact ⟨.ok [], rfl, fun key h => by cases h; exact List.infix_rfl⟩
  | cons tag rest =>
      by_cases htag : tag = fieldTag
      · rw [unmarshalBytesField1, if_neg (not_not.mpr htag)]
        by_cases hread : 0 < (decodeVarint rest).2
        · obtain ⟨n, hn, hle⟩ := decodeLoop_consumed rest hread
          rw [Nat.zero_add] at hn
          change (decodeVarint rest).2 = n at hn
          rw [hn] at hread ⊢
          rw [readKey_eq _ (Nat.cast_pos.mp hread) hle]
          refine ⟨_, rfl, ?_⟩
          intro key h
          split_ifs at h
          cases h
          exact ((List.take_prefix _ _).isInfix.trans (List.drop_suffix n rest).isInfix).trans
            (List.suffix_cons tag rest).isInfix
        · refine ⟨.error (.plain "invalid varint for length"), if_pos (not_lt.mp hread), ?_⟩
          intro key h
          cases h
      · refine ⟨_, by rw [unmarshalBytesField1, if_pos htag], ?_⟩
        intro key h
        cases h

end Fields

/-- What is written is read back, but for the ten greatest lengths, for which nothing is
written; a number is read back whatever follows it, and the bytes it took are counted;
any other bytes are refused or hold the key that is returned. -/
theorem key_codec_lossless :
    (∀ b : List UInt8, b.length < 2 ^ 63 →
      if b.length < 2 ^ 63 - 10 then
        ∃ enc, marshalBytesField1 b = .ok enc ∧ unmarshalBytesField1 enc = .ok (.ok b)
      else marshalBytesField1 b = .error "makeslice: cap out of range") ∧
    (∀ v : UInt64, ∃ enc, encodeVarint v = .ok enc ∧
      ∀ rest, decodeVarint (enc ++ rest) = (v, (enc.length : ℤ))) ∧
    ∀ dAtA : List UInt8, ∃ r, unmarshalBytesField1 dAtA = .ok r ∧
      ∀ key, r = .ok key → key <:+: dAtA := by
  refine ⟨?_, ?_, unmarshal_returns⟩
  · intro b hb
    split_ifs with hshort
    · exact unmarshal_marshal hshort
    · exact marshal_panics hb (Nat.le_of_not_lt hshort)
  · intro v
    exact ⟨_, encodeVarint_eq v, decodeVarint_groups v⟩

theorem three_bytes_read_back : ∃ enc, marshalBytesField1 [1, 2, 3] = .ok enc ∧
    unmarshalBytesField1 enc = .ok (.ok [1, 2, 3]) := by
  have h := key_codec_lossless.1 [1, 2, 3] (by decide)
  rwa [if_pos (by decide)] at h

/-- No room is made for the longest key. -/
theorem longest_key_panics : ∃ b : List UInt8, b.length < 2 ^ 63 ∧
    marshalBytesField1 b = .error "makeslice: cap out of range" := by
  have hlength : (List.replicate (2 ^ 63 - 1) (0 : UInt8)).length = 2 ^ 63 - 1 :=
    List.length_replicate
  have hlt : (List.replicate (2 ^ 63 - 1) (0 : UInt8)).length < 2 ^ 63 := by omega
  exact ⟨_, hlt, marshal_panics hlt (by omega)⟩

end Zytherion.KeyCodec
