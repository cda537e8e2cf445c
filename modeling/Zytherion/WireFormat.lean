import Zytherion.CallFrames
import Zytherion.ByteStrings
import Mathlib.Data.Nat.Log
import Mathlib.Tactic.Linarith

/-!
# The wire format of generated messages

Code generated for a message reads numbers in groups of seven bits, the lowest first.
An eleventh group is refused, and what the tenth has beyond the 64 bits is lost. A field
is a tag and a value; a field nobody asked for is skipped, and a group is skipped with
all it holds by counting how deep it is nested.

Encoders write backwards: room is made for the whole message, and the last field is
written first, against the end.

The grammar of what is read is stated apart from the readers.
-/
namespace Zytherion.WireFormat

open GoCall ByteStrings

/-! Go's `int`. -/

/-- What leaves the 64 bits is lost. -/
def wrap (z : ℤ) : ℤ := z.bmod (2 ^ 64)

theorem wrap_of_fits {z : ℤ} (hlow : -2 ^ 63 ≤ z) (hhigh : z < 2 ^ 63) : wrap z = z := by
  rw [wrap, Int.bmod_def]
  omega

theorem wrap_lt (z : ℤ) : wrap z < 2 ^ 63 := by
  rw [wrap, Int.bmod_def]
  omega

/-- A sum that is not negative did not leave the 64 bits. -/
theorem wrap_add {n k : ℕ} {j : ℤ} (hn : n < 2 ^ 63) (hk : k < 2 ^ 63)
    (h : wrap (n + k) = j) (hj : 0 ≤ j) : j = (n + k : ℕ) := by
  rw [wrap, Int.bmod_def] at h
  omega

theorem wrap_nonneg_iff {z : ℤ} (hlow : 0 ≤ z) (hhigh : z < 2 ^ 64) :
    0 ≤ wrap z ↔ z < 2 ^ 63 := by
  rw [wrap, Int.bmod_def]
  omega

/-! Numbers in groups of seven bits. -/

/-- What a number is read from: only the last byte is below 128. -/
def Terminated : List UInt8 → Prop
  | [] => False
  | b :: rest => if b < 0x80 then rest = [] else Terminated rest

/-- The number the groups stand for, the lowest first. -/
def groupsValue : List UInt8 → ℕ
  | [] => 0
  | b :: rest => b.toNat % 128 + 128 * groupsValue rest

/-- At most ten groups and the number they are read as. -/
structure Varint (enc : List UInt8) (v : ℕ) : Prop where
  terminated : Terminated enc
  short : enc.length ≤ 10
  value : v = groupsValue enc % 2 ^ 64

theorem Varint.lt {enc : List UInt8} {v : ℕ} (h : Varint enc v) : v < 2 ^ 64 := by
  rw [h.value]
  exact Nat.mod_lt _ (Nat.two_pow_pos 64)

theorem Varint.ne_nil {enc : List UInt8} {v : ℕ} (h : Varint enc v) : enc ≠ [] := by
  rintro rfl
  exact h.terminated

theorem Varint.length_pos {enc : List UInt8} {v : ℕ} (h : Varint enc v) : 0 < enc.length :=
  List.length_pos_iff.mpr h.ne_nil

/-- The groups of a number, as few as there can be. -/
def groups (v : ℕ) : List UInt8 :=
  if v < 128 then [UInt8.ofNat v] else UInt8.ofNat (v % 128 + 128) :: groups (v / 128)
termination_by v
decreasing_by omega

theorem groups_last {v : ℕ} (h : v < 128) : groups v = [UInt8.ofNat v] := by
  rw [groups, if_pos h]

theorem groups_more {v : ℕ} (h : 128 ≤ v) :
    groups v = UInt8.ofNat (v % 128 + 128) :: groups (v / 128) := by
  rw [groups, if_neg (by omega)]

theorem group_lt_iff (b : UInt8) : b < 0x80 ↔ b.toNat < 128 := UInt8.lt_iff_toNat_lt

theorem ofNat_byte {n : ℕ} (h : n < 256) : (UInt8.ofNat n).toNat = n := by
  rw [UInt8.toNat_ofNat']
  omega

/-- The lowest group as a byte that others follow. -/
theorem low_group (v : UInt64) :
    (v &&& 0x7f ||| 0x80).toUInt8 = UInt8.ofNat (v.toNat % 128 + 128) := by
  have hand : (v &&& 0x7f).toNat = v.toNat % 128 := by
    rw [UInt64.toNat_and]
    exact Nat.and_two_pow_sub_one_eq_mod v.toNat 7
  have hor : v.toNat % 128 ||| 128 = v.toNat % 128 + 128 := by
    have hbits := Nat.two_pow_add_eq_or_of_lt (i := 7) (b := v.toNat % 128) (by omega) 1
    rw [Nat.or_comm, Nat.add_comm]
    simpa using hbits.symm
  apply UInt8.toNat_inj.mp
  rw [UInt64.toNat_toUInt8, UInt64.toNat_or, hand, ofNat_byte (by omega)]
  rw [show (0x80 : UInt64).toNat = 128 from rfl, hor]
  omega

/-- The machine's words without their lowest group. -/
theorem high_groups (v : UInt64) : (v >>> 7).toNat = v.toNat / 128 := by
  rw [UInt64.toNat_shiftRight]
  simp [Nat.shiftRight_eq_div_pow]

theorem groups_terminated (v : ℕ) : Terminated (groups v) ∧ groupsValue (groups v) = v := by
  induction v using Nat.strongRecOn with
  | ind v ih =>
      by_cases hlast : v < 128
      · have hbyte : (UInt8.ofNat v).toNat = v := ofNat_byte (by omega)
        rw [groups_last hlast]
        constructor
        · rw [Terminated, if_pos ((group_lt_iff _).mpr (by rwa [hbyte]))]
        · rw [groupsValue, groupsValue, hbyte]
          omega
      · have hbyte : (UInt8.ofNat (v % 128 + 128)).toNat = v % 128 + 128 := ofNat_byte (by omega)
        obtain ⟨hrest, hvalue⟩ := ih (v / 128) (by omega)
        rw [groups_more (by omega)]
        constructor
        · rwa [Terminated, if_neg (by rw [group_lt_iff, hbyte]; omega)]
        · rw [groupsValue, hvalue, hbyte]
          omega

theorem groups_length_pos (v : ℕ) : 0 < (groups v).length := by
  rw [List.length_pos_iff]
  intro hnil
  have hterminated := (groups_terminated v).1
  rw [hnil] at hterminated
  exact hterminated

/-- A number has as many groups as it needs. -/
theorem groups_length_le {v k : ℕ} : (groups v).length ≤ k + 1 ↔ v < 128 ^ (k + 1) := by
  induction k generalizing v with
  | zero =>
      by_cases hlast : v < 128
      · rw [groups_last hlast]
        exact iff_of_true (Nat.le_refl 1) (by omega)
      · have hpos := groups_length_pos (v / 128)
        rw [groups_more (by omega), List.length_cons]
        omega
  | succ k ih =>
      by_cases hlast : v < 128
      · have hpow : 128 ^ 1 ≤ 128 ^ (k + 1 + 1) := Nat.pow_le_pow_right (by decide) (by omega)
        rw [groups_last hlast]
        exact iff_of_true (by simp) (by omega)
      · rw [groups_more (by omega), List.length_cons, Nat.add_le_add_iff_right, ih,
          Nat.div_lt_iff_lt_mul (by decide), ← pow_succ]

theorem groups_varint {v : ℕ} (h : v < 2 ^ 64) : Varint (groups v) v where
  terminated := (groups_terminated v).1
  short := groups_length_le.mpr (h.trans (by decide))
  value := by rw [(groups_terminated v).2, Nat.mod_eq_of_lt h]

/-- `sov`: how many groups a number has, from the position of its highest bit. -/
def sov (x : ℕ) : ℕ := ((x ||| 1).log2 + 1 + 6) / 7

theorem sov_eq (x : ℕ) : sov x = (groups x).length := by
  have hne : x ||| 1 ≠ 0 := by
    have hone : 1 ≤ x ||| 1 := Nat.right_le_or
    omega
  have hiff : ∀ k, sov x ≤ k + 1 ↔ (groups x).length ≤ k + 1 := by
    intro k
    have hpow : (128 : ℕ) ^ (k + 1) = 2 ^ (7 * (k + 1)) := by rw [pow_mul]; norm_num
    have hor : x ||| 1 < 2 ^ (7 * (k + 1)) ↔ x < 2 ^ (7 * (k + 1)) :=
      ⟨fun h => Nat.lt_of_le_of_lt Nat.left_le_or h,
        fun h => Nat.or_lt_two_pow h (Nat.one_lt_two_pow (by omega))⟩
    rw [groups_length_le, hpow, ← hor, ← Nat.log2_lt hne, sov]
    omega
  have hpos := groups_length_pos x
  have hsov : 0 < sov x := by
    rw [sov]
    omega
  have hle := (hiff ((groups x).length - 1)).mpr (by omega)
  have hge := (hiff (sov x - 1)).mp (by omega)
  omega

/-! Reading. -/

inductive WireError where
  | intOverflow
  | unexpectedEOF
  | invalidLength
  | unexpectedEndOfGroup
  | illegalWireType (wireType : ℕ)
  | endGroup (message : String)
  | illegalTag (message : String) (fieldNum : ℤ) (wire : ℕ)
  | wrongWireType (wireType : ℕ) (field : String)
  deriving DecidableEq, Repr

def WireError.text : WireError → String
  | intOverflow => "proto: integer overflow"
  | unexpectedEOF => "unexpected EOF"
  | invalidLength => "proto: negative length found during unmarshaling"
  | unexpectedEndOfGroup => "proto: unexpected end of group"
  | illegalWireType wireType => "proto: illegal wireType " ++ toString wireType
  | endGroup message => "proto: " ++ message ++ ": wiretype end group for non-group"
  | illegalTag message fieldNum wire => "proto: " ++ message ++ ": illegal tag " ++
      toString fieldNum ++ " (wire type " ++ toString wire ++ ")"
  | wrongWireType wireType field => "proto: wrong wireType = " ++ toString wireType ++
      " for field " ++ field

/-- The loop that reads a number, with what is left of the input and the bytes it took. -/
def readLoop (shift : ℕ) (v : UInt64) : List UInt8 → Except WireError (UInt64 × ℕ)
  | [] => if 64 ≤ shift then .error .intOverflow else .error .unexpectedEOF
  | b :: rest =>
      if 64 ≤ shift then .error .intOverflow
      else
        let v := v ||| UInt64.ofNat ((b &&& 0x7f).toNat * 2 ^ shift)
        if b < 0x80 then .ok (v, 1)
        else (readLoop (shift + 7) v rest).map fun r => (r.1, r.2 + 1)

/-- The number at an index and the index behind it. -/
def readVarint (dAtA : List UInt8) (iNdEx : ℕ) : Except WireError (UInt64 × ℕ) :=
  (readLoop 0 0 (dAtA.drop iNdEx)).map fun r => (r.1, iNdEx + r.2)

theorem payload_toNat (b : UInt8) : (b &&& 0x7f).toNat = b.toNat % 128 := by
  rw [UInt8.toNat_and]
  exact Nat.and_two_pow_sub_one_eq_mod b.toNat 7

/-- A group is put above the bits that have been read; beyond the 64 bits it is lost. -/
theorem or_group {v : UInt64} {shift g : ℕ} (hv : v.toNat < 2 ^ shift) :
    (v ||| UInt64.ofNat (g * 2 ^ shift)).toNat = (v.toNat + g * 2 ^ shift) % 2 ^ 64 := by
  have hsum : v.toNat + g * 2 ^ shift = v.toNat ||| g * 2 ^ shift := by
    rw [Nat.or_comm, Nat.mul_comm, ← Nat.two_pow_add_eq_or_of_lt hv, Nat.add_comm]
  rw [UInt64.toNat_or, UInt64.toNat_ofNat', hsum, Nat.or_mod_two_pow,
    Nat.mod_eq_of_lt v.toNat_lt]

theorem map_ok {ε α β : Type} {x : Except ε α} {f : α → β} {b : β} :
    x.map f = .ok b ↔ ∃ a, x = .ok a ∧ f a = b := by
  cases x with
  | ok a =>
      show Except.ok (f a) = .ok b ↔ _
      simp
  | error e =>
      show Except.error e = Except.ok b ↔ _
      simp

theorem ok_bind {ε α β : Type} (a : α) (f : α → Except ε β) : (Except.ok a >>= f) = f a := rfl

section Varints
variable {v w : UInt64} {k n : ℕ} {bytes : List UInt8}

/-- Ten groups are read at most, from wherever the loop stands. -/
theorem readLoop_ok (hv : v.toNat < 2 ^ (7 * k)) : readLoop (7 * k) v bytes = .ok (w, n) ↔
    ∃ enc rest, bytes = enc ++ rest ∧ Terminated enc ∧ k + enc.length ≤ 10 ∧ enc.length = n ∧
      w.toNat = (v.toNat + groupsValue enc * 2 ^ (7 * k)) % 2 ^ 64 := by
  induction bytes generalizing v k n with
  | nil =>
      have hloop : readLoop (7 * k) v [] ≠ .ok (w, n) := by
        rw [readLoop]
        split_ifs <;> simp
      refine iff_of_false hloop ?_
      rintro ⟨enc, rest, hnil, hterminated, -⟩
      rw [(List.append_eq_nil_iff.mp hnil.symm).1] at hterminated
      exact hterminated
  | cons b bytes ih =>
      have hstep : 2 ^ (7 * (k + 1)) = 128 * 2 ^ (7 * k) := by
        rw [Nat.mul_add, pow_add, Nat.mul_comm]
        rfl
      have hcons : ∀ {P : List UInt8 → Prop}, ¬P [] →
          ((∃ enc rest, b :: bytes = enc ++ rest ∧ P enc) ↔
            ∃ enc rest, bytes = enc ++ rest ∧ P (b :: enc)) := by
        intro P hP
        constructor
        · rintro ⟨enc, rest, happ, henc⟩
          cases enc with
          | nil => exact absurd henc hP
          | cons c enc =>
              obtain ⟨rfl, rfl⟩ := List.cons.inj happ
              exact ⟨enc, rest, rfl, henc⟩
        · rintro ⟨enc, rest, rfl, henc⟩
          exact ⟨b :: enc, rest, rfl, henc⟩
      rw [hcons (by rintro ⟨h, -⟩; exact h), readLoop]
      split_ifs with hfull hlast
      · refine iff_of_false (by simp) ?_
        rintro ⟨enc, rest, -, -, hshort, -⟩
        rw [List.length_cons] at hshort
        omega
      · simp only [Terminated, if_pos hlast, Except.ok.injEq, Prod.mk.injEq, groupsValue]
        have hvalue := or_group (g := b.toNat % 128) hv
        constructor
        · rintro ⟨rfl, rfl⟩
          refine ⟨[], bytes, rfl, rfl, by simp; omega, rfl, ?_⟩
          rw [payload_toNat, hvalue, groupsValue, Nat.mul_zero, Nat.add_zero]
        · rintro ⟨enc, rest, -, rfl, -, rfl, hw⟩
          refine ⟨?_, rfl⟩
          apply UInt64.toNat_inj.mp
          rw [payload_toNat, hvalue, hw, groupsValue, Nat.mul_zero, Nat.add_zero]
      · have hvalue := or_group (g := b.toNat % 128) hv
        have hnext : (v ||| UInt64.ofNat (b.toNat % 128 * 2 ^ (7 * k))).toNat <
            2 ^ (7 * (k + 1)) := by
          have hgroup : b.toNat % 128 < 128 := Nat.mod_lt _ (by decide)
          have hle := Nat.mod_le (v.toNat + b.toNat % 128 * 2 ^ (7 * k)) (2 ^ 64)
          rw [hvalue, hstep]
          nlinarith
        simp only [Terminated, if_neg hlast, groupsValue, payload_toNat, map_ok, Prod.exists,
          Prod.mk.injEq, ← Nat.mul_succ]
        constructor
        · rintro ⟨w', n', hread, rfl, rfl⟩
          obtain ⟨enc, rest, rfl, hterminated, hshort, rfl, hw⟩ := (ih hnext).mp hread
          refine ⟨enc, rest, rfl, hterminated, by rw [List.length_cons]; omega, rfl, ?_⟩
          rw [hw, hvalue, hstep, Nat.mod_add_mod]
          congr 1
          ring
        · rintro ⟨enc, rest, rfl, hterminated, hshort, rfl, hw⟩
          rw [List.length_cons] at hshort
          refine ⟨w, enc.length, (ih hnext).mpr
            ⟨enc, rest, rfl, hterminated, by omega, rfl, ?_⟩, rfl, rfl⟩
          rw [hw, hvalue, hstep, Nat.mod_add_mod]
          congr 1
          ring

variable {dAtA : List UInt8} {iNdEx j : ℕ}

/-- What is read is a number of the grammar, and the index moves behind it. -/
theorem readVarint_ok : readVarint dAtA iNdEx = .ok (w, j) ↔
    ∃ enc rest, dAtA.drop iNdEx = enc ++ rest ∧ Varint enc w.toNat ∧ iNdEx + enc.length = j := by
  simp only [readVarint, map_ok, Prod.exists, Prod.mk.injEq]
  have hread : ∀ {n}, readLoop 0 0 (dAtA.drop iNdEx) = .ok (w, n) ↔ _ :=
    readLoop_ok (k := 0) (v := 0) Nat.one_pos
  constructor
  · rintro ⟨_, n, hloop, rfl, rfl⟩
    obtain ⟨enc, rest, hdrop, hterminated, hshort, rfl, hw⟩ := hread.mp hloop
    exact ⟨enc, rest, hdrop, ⟨hterminated, by omega, by simpa using hw⟩, rfl⟩
  · rintro ⟨enc, rest, hdrop, henc, rfl⟩
    have hshort := henc.short
    exact ⟨w, enc.length, hread.mpr ⟨enc, rest, hdrop, henc.terminated, by omega, rfl,
      by simpa using henc.value⟩, rfl, rfl⟩

theorem readVarint_of {enc rest : List UInt8} {v : ℕ} (h : dAtA.drop iNdEx = enc ++ rest)
    (henc : Varint enc v) :
    readVarint dAtA iNdEx = .ok (UInt64.ofNat v, iNdEx + enc.length) := by
  have hv : (UInt64.ofNat v).toNat = v := by
    rw [UInt64.toNat_ofNat', Nat.mod_eq_of_lt henc.lt]
  exact readVarint_ok.mpr ⟨enc, rest, h, hv.symm ▸ henc, rfl⟩

end Varints

/-! Fields that are skipped. -/

/-- A tag with a wire type in its lowest three bits. -/
def Tag (enc : List UInt8) (wireType : ℕ) : Prop := ∃ v, Varint enc v ∧ v % 8 = wireType

/-- The values that hold no other fields. -/
inductive Scalar : (wireType : ℕ) → List UInt8 → Prop
  | varint {enc : List UInt8} {v : ℕ} (h : Varint enc v) : Scalar 0 enc
  | fixed64 {b : List UInt8} (h : b.length = 8) : Scalar 1 b
  | bytes {enc data : List UInt8} (h : Varint enc data.length) : Scalar 2 (enc ++ data)
  | fixed32 {b : List UInt8} (h : b.length = 4) : Scalar 5 b

/-- Fields one after another, groups with all they hold. The tag that closes a group need
not have the number of the one that opened it. -/
inductive Items : List UInt8 → Prop
  | nil : Items []
  | scalar {tag val rest : List UInt8} {t : ℕ} (htag : Tag tag t) (hval : Scalar t val)
      (hrest : Items rest) : Items (tag ++ val ++ rest)
  | group {tag body close rest : List UInt8} (htag : Tag tag 3) (hbody : Items body)
      (hclose : Tag close 4) (hrest : Items rest) : Items (tag ++ body ++ close ++ rest)

/-- One field. -/
inductive Item : List UInt8 → Prop
  | scalar {tag val : List UInt8} {t : ℕ} (htag : Tag tag t) (hval : Scalar t val) :
      Item (tag ++ val)
  | group {tag body close : List UInt8} (htag : Tag tag 3) (hbody : Items body)
      (hclose : Tag close 4) : Item (tag ++ body ++ close)

/-- The value behind a tag: where it ends, and how deep the loop is then. -/
def skipValue (dAtA : List UInt8) (wireType iNdEx depth : ℕ) : Except WireError (ℤ × ℕ) :=
  match wireType with
  | 0 => do
      let (_, iNdEx) ← readVarint dAtA iNdEx
      return (iNdEx, depth)
  | 1 => return (wrap (iNdEx + 8), depth)
  | 2 => do
      let (length, iNdEx) ← readVarint dAtA iNdEx
      if wrap length.toNat < 0 then .error .invalidLength
      else return (wrap (iNdEx + wrap length.toNat), depth)
  | 3 => return (iNdEx, depth + 1)
  | 4 => if depth = 0 then .error .unexpectedEndOfGroup else return (iNdEx, depth - 1)
  | 5 => return (wrap (iNdEx + 4), depth)
  | wireType => .error (.illegalWireType wireType)

/-- One round of the loop that skips. -/
def skipRound (dAtA : List UInt8) (iNdEx depth : ℕ) : Except WireError (ℤ × ℕ) := do
  let (wire, iNdEx) ← readVarint dAtA iNdEx
  skipValue dAtA (wire &&& 7).toNat iNdEx depth

/-- The loop. Every round takes a byte, so there are no more rounds than bytes. -/
def skipLoop (dAtA : List UInt8) : (rounds : ℕ) → (iNdEx : ℤ) → (depth : ℕ) →
    Except WireError ℤ
  | 0, _, _ => .error .unexpectedEOF
  | rounds + 1, iNdEx, depth =>
      if iNdEx < dAtA.length then do
        let (iNdEx, depth) ← skipRound dAtA iNdEx.toNat depth
        if iNdEx < 0 then .error .invalidLength
        else if depth = 0 then return iNdEx
        else skipLoop dAtA rounds iNdEx depth
      else .error .unexpectedEOF

def skip (dAtA : List UInt8) : Except WireError ℤ := skipLoop dAtA dAtA.length 0 0

/-- What one round passes over, and what becomes of the depth. -/
inductive Round : (depth : ℕ) → List UInt8 → (depth' : ℕ) → Prop
  | scalar {depth t : ℕ} {tag val : List UInt8} (htag : Tag tag t) (hval : Scalar t val) :
      Round depth (tag ++ val) depth
  | opens {depth : ℕ} {tag : List UInt8} (htag : Tag tag 3) : Round depth tag (depth + 1)
  | closes {depth : ℕ} {tag : List UInt8} (htag : Tag tag 4) : Round (depth + 1) tag depth

/-- Rounds until the depth is zero again. -/
inductive Rounds : (depth : ℕ) → List UInt8 → Prop
  | last {depth : ℕ} {b : List UInt8} (h : Round depth b 0) : Rounds depth b
  | more {depth depth' : ℕ} {b b' : List UInt8} (h : Round depth b (depth' + 1))
      (hrest : Rounds (depth' + 1) b') : Rounds depth (b ++ b')

section Skipping
variable {dAtA : List UInt8} {i depth depth' : ℕ} {j : ℤ}

theorem wireType_toNat (wire : UInt64) : (wire &&& 7).toNat = wire.toNat % 8 := by
  rw [UInt64.toNat_and]
  exact Nat.and_two_pow_sub_one_eq_mod wire.toNat 3

theorem Round.length_pos {b : List UInt8} (h : Round depth b depth') : 0 < b.length := by
  have htag : ∀ {enc t}, Tag enc t → 0 < enc.length := fun ⟨_, henc, _⟩ => henc.length_pos
  cases h with
  | scalar htag' _ =>
      rw [List.length_append]
      exact Nat.add_pos_left (htag htag') _
  | opens htag' => exact htag htag'
  | closes htag' => exact htag htag'

/-- A field of fixed size that lies within the input. -/
theorem split_fixed (dAtA : List UInt8) (n k : ℕ) (h : n + k ≤ dAtA.length) :
    ∃ val rest, dAtA.drop n = val ++ rest ∧ val.length = k :=
  ⟨(dAtA.drop n).take k, (dAtA.drop n).drop k, (List.take_append_drop k _).symm, by
    rw [List.length_take, List.length_drop]
    omega⟩

theorem drop_behind {n : ℕ} {enc rest : List UInt8} (h : dAtA.drop n = enc ++ rest) :
    dAtA.drop (n + enc.length) = rest := by
  rw [← List.drop_drop, h, List.drop_left]

theorem length_le_of_drop {n : ℕ} {enc rest : List UInt8} (h : dAtA.drop n = enc ++ rest)
    (henc : enc ≠ []) : n + enc.length ≤ dAtA.length := by
  have hlength := congrArg List.length h
  have hpos := List.length_pos_iff.mpr henc
  rw [List.length_drop, List.length_append] at hlength
  omega

/-- A round that ends within the input has passed over what the grammar says. -/
theorem skipRound_sound (hl : dAtA.length < 2 ^ 63) (hj : j ≤ dAtA.length) (hnonneg : 0 ≤ j)
    (h : skipRound dAtA i depth = .ok (j, depth')) :
    ∃ b rest, dAtA.drop i = b ++ rest ∧ Round depth b depth' ∧ j = (i + b.length : ℕ) := by
  obtain ⟨⟨wire, n⟩, hwire, h⟩ := (except_bind_ok _ _ _).mp h
  obtain ⟨tag, rest, hdrop, htag, rfl⟩ := readVarint_ok.mp hwire
  have hinside := length_le_of_drop hdrop htag.ne_nil
  have htype : Tag tag (wire.toNat % 8) := ⟨_, htag, rfl⟩
  -- a value behind the tag whose end lies within the input
  have hvalue : ∀ val rest', dAtA.drop (i + tag.length) = val ++ rest' →
      j = (i + tag.length + val.length : ℕ) → Scalar (wire.toNat % 8) val →
      ∃ b rest, dAtA.drop i = b ++ rest ∧ Round depth b depth ∧ j = (i + b.length : ℕ) := by
    intro val rest' hval hend hscalar
    rw [drop_behind hdrop] at hval
    refine ⟨tag ++ val, rest', ?_, .scalar htype hscalar, ?_⟩
    · rw [hdrop, hval, List.append_assoc]
    · rw [hend, List.length_append, Nat.add_assoc]
  dsimp only at h
  rw [wireType_toNat] at h
  unfold skipValue at h
  split at h
  · rename_i hzero
    obtain ⟨⟨value, n⟩, hread, h⟩ := (except_bind_ok _ _ _).mp h
    obtain ⟨val, rest', hval, hvarint, rfl⟩ := readVarint_ok.mp hread
    obtain ⟨rfl, rfl⟩ := Prod.mk.inj (Except.ok.inj h)
    exact hvalue val rest' hval rfl (hzero ▸ .varint hvarint)
  · rename_i hone
    obtain ⟨hend, rfl⟩ := Prod.mk.inj (Except.ok.inj h)
    have hsum : j = (i + tag.length + 8 : ℕ) := wrap_add (by omega) (by omega) hend hnonneg
    obtain ⟨val, rest', hval, hlen⟩ := split_fixed dAtA (i + tag.length) 8 (by omega)
    exact hvalue val rest' hval (hlen ▸ hsum) (hone ▸ .fixed64 hlen)
  · rename_i htwo
    obtain ⟨⟨length, n⟩, hread, h⟩ := (except_bind_ok _ _ _).mp h
    obtain ⟨enc, rest', henc, hvarint, rfl⟩ := readVarint_ok.mp hread
    dsimp only at h
    split_ifs at h with hneg
    obtain ⟨hend, rfl⟩ := Prod.mk.inj (Except.ok.inj h)
    have hsmall := (wrap_nonneg_iff (z := (length.toNat : ℤ)) (by omega)
      (by exact_mod_cast hvarint.lt)).mp (not_lt.mp hneg)
    have hinside' := length_le_of_drop henc hvarint.ne_nil
    rw [wrap_of_fits (by omega) hsmall] at hend
    have hsum : j = (i + tag.length + enc.length + length.toNat : ℕ) :=
      wrap_add (by omega) (by omega) hend hnonneg
    obtain ⟨data, rest'', hdata, hlen⟩ := split_fixed dAtA
      (i + tag.length + enc.length) length.toNat (by omega)
    rw [drop_behind henc] at hdata
    refine hvalue (enc ++ data) rest'' ?_ ?_ (htwo ▸ .bytes (hlen ▸ hvarint))
    · rw [henc, hdata, List.append_assoc]
    · rw [hsum, List.length_append, hlen, Nat.add_assoc _ enc.length]
  · rename_i hthree
    obtain ⟨rfl, rfl⟩ := Prod.mk.inj (Except.ok.inj h)
    exact ⟨tag, rest, hdrop, .opens (hthree ▸ htype), rfl⟩
  · rename_i hfour
    split_ifs at h with hzero
    obtain ⟨rfl, rfl⟩ := Prod.mk.inj (Except.ok.inj h)
    obtain ⟨d, rfl⟩ := Nat.exists_eq_succ_of_ne_zero hzero
    exact ⟨tag, rest, hdrop, .closes (hfour ▸ htype), rfl⟩
  · rename_i hfive
    obtain ⟨hend, rfl⟩ := Prod.mk.inj (Except.ok.inj h)
    have hsum : j = (i + tag.length + 4 : ℕ) := wrap_add (by omega) (by omega) hend hnonneg
    obtain ⟨val, rest', hval, hlen⟩ := split_fixed dAtA (i + tag.length) 4 (by omega)
    exact hvalue val rest' hval (hlen ▸ hsum) (hfive ▸ .fixed32 hlen)
  · cases h

theorem varint_toNat {enc : List UInt8} {v : ℕ} (h : Varint enc v) :
    (UInt64.ofNat v).toNat = v := by
  rw [UInt64.toNat_ofNat', Nat.mod_eq_of_lt h.lt]

theorem skipRound_tag {tag rest : List UInt8} {t : ℕ} (hdrop : dAtA.drop i = tag ++ rest)
    (htag : Tag tag t) : skipRound dAtA i depth = skipValue dAtA t (i + tag.length) depth := by
  obtain ⟨v, henc, rfl⟩ := htag
  rw [skipRound, readVarint_of hdrop henc, ok_bind]
  dsimp only
  rw [wireType_toNat, varint_toNat henc]

theorem skipValue_scalar (hl : dAtA.length < 2 ^ 63) {val rest : List UInt8} {n t : ℕ}
    (hdrop : dAtA.drop n = val ++ rest) (hn : n + val.length ≤ dAtA.length)
    (hval : Scalar t val) :
    skipValue dAtA t n depth = .ok (((n + val.length : ℕ) : ℤ), depth) := by
  cases hval with
  | varint henc =>
      rw [skipValue, readVarint_of hdrop henc]
      rfl
  | fixed64 hlen =>
      have hend : wrap ((n : ℤ) + 8) = (n + val.length : ℕ) := by
        rw [hlen, wrap_of_fits (by omega) (by omega)]
        rfl
      rw [skipValue, hend]
      rfl
  | @bytes enc data henc =>
      rw [List.append_assoc] at hdrop
      rw [List.length_append] at hn ⊢
      have hlen : wrap ((UInt64.ofNat data.length).toNat : ℤ) = data.length := by
        rw [varint_toNat henc, wrap_of_fits (by omega) (by omega)]
      have hend : wrap (((n + enc.length : ℕ) : ℤ) + data.length) =
          (n + (enc.length + data.length) : ℕ) := by
        rw [wrap_of_fits (by omega) (by omega)]
        push_cast
        ring
      rw [skipValue, readVarint_of hdrop henc, ok_bind]
      simp only [hlen, hend, if_neg (show ¬(data.length : ℤ) < 0 by omega)]
      rfl
  | fixed32 hlen =>
      have hend : wrap ((n : ℤ) + 4) = (n + val.length : ℕ) := by
        rw [hlen, wrap_of_fits (by omega) (by omega)]
        rfl
      rw [skipValue, hend]
      rfl

theorem skipRound_complete (hl : dAtA.length < 2 ^ 63) {b rest : List UInt8}
    (hdrop : dAtA.drop i = b ++ rest) (h : Round depth b depth') :
    skipRound dAtA i depth = .ok (((i + b.length : ℕ) : ℤ), depth') := by
  have hend := length_le_of_drop hdrop (List.length_pos_iff.mp h.length_pos)
  cases h with
  | scalar htag hval =>
      rw [List.append_assoc] at hdrop
      rw [List.length_append] at hend ⊢
      rw [skipRound_tag hdrop htag,
        skipValue_scalar hl (drop_behind hdrop) (by omega) hval, Nat.add_assoc]
  | opens htag => exact skipRound_tag hdrop htag
  | closes htag => exact skipRound_tag hdrop htag

theorem Rounds.ne_nil {b : List UInt8} (h : Rounds depth b) : b ≠ [] := by
  apply List.length_pos_iff.mp
  cases h with
  | last h => exact h.length_pos
  | more h _ =>
      rw [List.length_append]
      exact Nat.add_pos_left h.length_pos _

theorem Rounds.inside {b rest : List UInt8} (h : Rounds depth b)
    (hdrop : dAtA.drop i = b ++ rest) : i < dAtA.length := by
  have hend := length_le_of_drop hdrop h.ne_nil
  have hpos := List.length_pos_iff.mpr h.ne_nil
  omega

theorem skipLoop_inside {rounds : ℕ} {n : ℤ} (h : skipLoop dAtA rounds j depth = .ok n) :
    j < dAtA.length := by
  cases rounds with
  | zero => cases h
  | succ rounds =>
      rw [skipLoop] at h
      split_ifs at h with hlt
      exact hlt

/-- One turn of the loop, with all that can come of it. -/
theorem skipLoop_succ {rounds : ℕ} (hi : i < dAtA.length) {n : ℤ} :
    skipLoop dAtA (rounds + 1) i depth = .ok n ↔
      ∃ j depth', skipRound dAtA i depth = .ok (j, depth') ∧ 0 ≤ j ∧
        (depth' = 0 ∧ j = n ∨ depth' ≠ 0 ∧ skipLoop dAtA rounds j depth' = .ok n) := by
  rw [skipLoop, if_pos (by exact_mod_cast hi), Int.toNat_natCast, except_bind_ok]
  rw [Prod.exists]
  refine exists_congr fun j => exists_congr fun depth' => and_congr_right fun _ => ?_
  by_cases hneg : j < 0
  · simp [hneg, not_le.mpr hneg]
  · by_cases hzero : depth' = 0
    · simp only [if_neg hneg, hzero, if_true, not_lt.mp hneg, true_and, ne_eq,
        not_true_eq_false, false_and, or_false]
      exact Iff.of_eq (Except.ok.injEq ..)
    · simp [hneg, hzero, not_lt.mp hneg]

/-- The loop has enough rounds, and stops where the depth is zero again. -/
theorem skipLoop_ok (hl : dAtA.length < 2 ^ 63) {rounds n : ℕ} (hrounds : dAtA.length ≤ i + rounds)
    (hn : n ≤ dAtA.length) : skipLoop dAtA rounds i depth = .ok (n : ℤ) ↔
      ∃ b rest, dAtA.drop i = b ++ rest ∧ Rounds depth b ∧ n = i + b.length := by
  induction rounds generalizing i depth with
  | zero =>
      refine iff_of_false (by rw [skipLoop]; simp) ?_
      rintro ⟨b, rest, hdrop, hb, -⟩
      have hlt := hb.inside hdrop
      omega
  | succ rounds ih =>
      by_cases hi : i < dAtA.length
      · rw [skipLoop_succ hi]
        constructor
        · rintro ⟨j, depth', hround, hj, ⟨rfl, rfl⟩ | ⟨hdeep, hloop⟩⟩
          · obtain ⟨b, rest, hdrop, hb, hend⟩ := skipRound_sound hl (by omega) hj hround
            exact ⟨b, rest, hdrop, .last hb, by omega⟩
          · have hinside := skipLoop_inside hloop
            obtain ⟨b, rest, hdrop, hb, rfl⟩ := skipRound_sound hl (by omega) hj hround
            have hpos := hb.length_pos
            obtain ⟨b', rest', hdrop', hb', rfl⟩ := (ih (by omega)).mp hloop
            obtain ⟨d, rfl⟩ := Nat.exists_eq_succ_of_ne_zero hdeep
            rw [drop_behind hdrop] at hdrop'
            refine ⟨b ++ b', rest', ?_, .more hb hb', ?_⟩
            · rw [hdrop, hdrop', List.append_assoc]
            · rw [List.length_append, Nat.add_assoc]
        · rintro ⟨b, rest, hdrop, hb, rfl⟩
          cases hb with
          | last hb =>
              exact ⟨_, 0, skipRound_complete hl hdrop hb, by omega, .inl ⟨rfl, rfl⟩⟩
          | @more _ d b b' hb hb' =>
              rw [List.append_assoc] at hdrop
              have hpos := hb.length_pos
              refine ⟨_, d + 1, skipRound_complete hl hdrop hb, by omega,
                .inr ⟨Nat.succ_ne_zero d, (ih (by omega)).mpr
                  ⟨b', rest, drop_behind hdrop, hb', ?_⟩⟩⟩
              rw [List.length_append, Nat.add_assoc]
      · refine iff_of_false (fun h => hi (by exact_mod_cast skipLoop_inside h)) ?_
        rintro ⟨b, rest, hdrop, hb, -⟩
        exact hi (hb.inside hdrop)

theorem skipValue_lt (hl : dAtA.length < 2 ^ 63) {t n : ℕ} (hn : n ≤ dAtA.length)
    (h : skipValue dAtA t n depth = .ok (j, depth')) : j < 2 ^ 63 := by
  unfold skipValue at h
  split at h
  · obtain ⟨⟨value, k⟩, hread, h⟩ := (except_bind_ok _ _ _).mp h
    obtain ⟨enc, rest, hdrop, henc, rfl⟩ := readVarint_ok.mp hread
    have hend := length_le_of_drop hdrop henc.ne_nil
    have hj := (Prod.mk.inj (Except.ok.inj h)).1
    omega
  · exact (Prod.mk.inj (Except.ok.inj h)).1 ▸ wrap_lt _
  · obtain ⟨⟨length, k⟩, hread, h⟩ := (except_bind_ok _ _ _).mp h
    dsimp only at h
    split_ifs at h
    exact (Prod.mk.inj (Except.ok.inj h)).1 ▸ wrap_lt _
  · have hj := (Prod.mk.inj (Except.ok.inj h)).1
    omega
  · split_ifs at h
    have hj := (Prod.mk.inj (Except.ok.inj h)).1
    omega
  · exact (Prod.mk.inj (Except.ok.inj h)).1 ▸ wrap_lt _
  · cases h

/-- What is returned is a value of the 64 bits, within the input or not. -/
theorem skipLoop_lt (hl : dAtA.length < 2 ^ 63) {rounds : ℕ} {n : ℤ} (hj : 0 ≤ j)
    (h : skipLoop dAtA rounds j depth = .ok n) : n < 2 ^ 63 := by
  induction rounds generalizing j depth with
  | zero => cases h
  | succ rounds ih =>
      obtain ⟨i, rfl⟩ := Int.eq_ofNat_of_zero_le hj
      have hinside := skipLoop_inside h
      obtain ⟨k, d, hround, hk, ⟨-, rfl⟩ | ⟨-, hloop⟩⟩ :=
        (skipLoop_succ (by exact_mod_cast hinside)).mp h
      · obtain ⟨⟨wire, e⟩, hread, hvalue⟩ := (except_bind_ok _ _ _).mp hround
        obtain ⟨enc, rest, hdrop, henc, rfl⟩ := readVarint_ok.mp hread
        exact skipValue_lt hl (length_le_of_drop hdrop henc.ne_nil) hvalue
      · exact ih hk hloop

/-- What closes a number of groups. -/
def Closing : (depth : ℕ) → List UInt8 → Prop
  | 0, b => b = []
  | depth + 1, b => ∃ body close rest, b = body ++ close ++ rest ∧ Items body ∧ Tag close 4 ∧
      Closing depth rest

theorem Closing.scalar {t : ℕ} {tag val b : List UInt8} (htag : Tag tag t) (hval : Scalar t val)
    (h : Closing (depth + 1) b) : Closing (depth + 1) (tag ++ val ++ b) := by
  obtain ⟨body, close, rest, rfl, hbody, hclose, hrest⟩ := h
  exact ⟨tag ++ val ++ body, close, rest, by simp, .scalar htag hval hbody, hclose, hrest⟩

theorem Closing.opens {tag b : List UInt8} (htag : Tag tag 3) (h : Closing (depth + 2) b) :
    Closing (depth + 1) (tag ++ b) := by
  obtain ⟨body, close, _, rfl, hbody, hclose, body', close', rest, rfl, hbody', hclose', hrest⟩ := h
  exact ⟨tag ++ body ++ close ++ body', close', rest, by simp, .group htag hbody hclose hbody',
    hclose', hrest⟩

theorem Closing.closes {tag b : List UInt8} (htag : Tag tag 4) (h : Closing depth b) :
    Closing (depth + 1) (tag ++ b) := ⟨[], tag, b, rfl, .nil, htag, h⟩

/-- The fields within a group are passed over one after another. -/
theorem Items.rounds {body b : List UInt8} (h : Items body) (hb : Rounds (depth + 1) b) :
    Rounds (depth + 1) (body ++ b) := by
  induction h generalizing depth b with
  | nil => exact hb
  | scalar htag hval _ ih =>
      rw [List.append_assoc]
      exact .more (.scalar htag hval) (ih hb)
  | group htag _ hclose _ ih ih' =>
      rw [List.append_assoc, List.append_assoc, List.append_assoc]
      exact .more (.opens htag) (ih (.more (.closes hclose) (ih' hb)))

theorem Rounds.closing {b : List UInt8} (h : Rounds depth b) (hdepth : 0 < depth) :
    Closing depth b := by
  induction h with
  | last h =>
      cases h with
      | scalar => exact absurd hdepth (Nat.lt_irrefl 0)
      | closes htag =>
          have hclosing := Closing.closes htag (show Closing 0 [] from rfl)
          rwa [List.append_nil] at hclosing
  | more h _ ih =>
      cases h with
      | scalar htag hval => exact .scalar htag hval (ih hdepth)
      | opens htag =>
          obtain ⟨d, rfl⟩ := Nat.exists_eq_succ_of_ne_zero hdepth.ne'
          exact .opens htag (ih (Nat.succ_pos _))
      | closes htag => exact .closes htag (ih (Nat.succ_pos _))

/-- Outside of all groups, one field is passed over. -/
theorem rounds_iff_item {b : List UInt8} : Rounds 0 b ↔ Item b := by
  constructor
  · intro h
    cases h with
    | last h =>
        cases h with
        | scalar htag hval => exact .scalar htag hval
    | more h hrest =>
        cases h with
        | opens htag =>
            obtain ⟨body, close, _, rfl, hbody, hclose, rfl⟩ :=
              hrest.closing Nat.one_pos
            rw [List.append_nil, ← List.append_assoc]
            exact .group htag hbody hclose
  · intro h
    cases h with
    | scalar htag hval => exact .last (.scalar htag hval)
    | group htag hbody hclose =>
        rw [List.append_assoc]
        exact .more (.opens htag) (hbody.rounds (.last (.closes hclose)))

/-- One field is skipped, whatever follows it. -/
theorem skip_ok (hl : dAtA.length < 2 ^ 63) {n : ℕ} (hn : n ≤ dAtA.length) :
    skip dAtA = .ok (n : ℤ) ↔ ∃ b rest, dAtA = b ++ rest ∧ Item b ∧ n = b.length := by
  have hloop : skipLoop dAtA dAtA.length 0 0 = .ok (n : ℤ) ↔ _ := skipLoop_ok hl (by omega) hn
  simp only [List.drop_zero, rounds_iff_item, Nat.zero_add] at hloop
  exact hloop

theorem skip_lt (hl : dAtA.length < 2 ^ 63) (h : skip dAtA = .ok j) : j < 2 ^ 63 :=
  skipLoop_lt hl le_rfl h

/-- A field begins with its tag, which closes no group. -/
theorem Item.tag {b : List UInt8} (h : Item b) :
    ∃ tag val t, b = tag ++ val ∧ Tag tag t ∧ t ≠ 4 := by
  cases h with
  | scalar htag hval => exact ⟨_, _, _, rfl, htag, by cases hval <;> decide⟩
  | group htag hbody hclose => exact ⟨_, _, 3, List.append_assoc .., htag, by decide⟩

/-- The number at the start of a string is determined. -/
theorem Varint.unique {enc enc' rest rest' : List UInt8} {v v' : ℕ} (h : Varint enc v)
    (h' : Varint enc' v') (heq : enc ++ rest = enc' ++ rest') : enc = enc' ∧ v = v' := by
  have hread := readVarint_of (List.drop_zero (l := enc ++ rest)) h
  rw [readVarint_of (List.drop_zero.trans heq) h'] at hread
  obtain ⟨hvalue, hlength⟩ := Prod.mk.inj (Except.ok.inj hread)
  constructor
  · exact (List.append_inj heq (by omega)).1
  · rw [← varint_toNat h, ← varint_toNat h', hvalue]

end Skipping

end Zytherion.WireFormat
