import Zytherion.SizedBuffers
import Mathlib.Data.List.FinRange
import Mathlib.Logic.Function.Basic

/-!
# The wire form of the privacy messages

The messages of the privacy module hold texts and byte strings in fields numbered from
one. Their code is generated, or written by hand after what is generated: one function
that writes, from the last field to the first, one that tells the size, and one that
reads field after field into the message it is called on. Fields it does not know are
skipped, a field that occurs twice keeps the later value, and on an error the message
keeps what was read up to then. The answers to a commitment and to a submission are
written but not read: their `Unmarshal` accepts whatever comes and sets nothing.

A text is read without a look at its encoding, so a message is a list of byte strings
here. A slice that is nil and one that is empty are the same.
-/
namespace Zytherion.MessageCodec

open GoCall ByteStrings WireFormat SizedBuffers

/-- The name of a message and the names of its fields. -/
structure Schema where
  name : String
  fields : List String
  deriving DecidableEq

/-- What the fields of a message hold. -/
abbrev Values (S : Schema) : Type := Fin S.fields.length → List UInt8

def msgEncryptedTransfer : Schema :=
  ⟨"MsgEncryptedTransfer", ["Sender", "Recipient", "AmountCiphertext"]⟩
def msgEncryptedTransferResponse : Schema := ⟨"MsgEncryptedTransferResponse", []⟩
def msgDeposit : Schema := ⟨"MsgDeposit", ["Creator", "Amount"]⟩
def msgDepositResponse : Schema := ⟨"MsgDepositResponse", []⟩
def msgInitCommitment : Schema := ⟨"MsgInitCommitment", ["Creator", "Amount", "Commitment"]⟩
def msgTFHESubmit : Schema := ⟨"MsgTFHESubmit", ["Sender", "Ciphertext"]⟩

/-- The messages that are read field by field. -/
def messages : List Schema :=
  [msgEncryptedTransfer, msgEncryptedTransferResponse, msgDeposit, msgDepositResponse,
    msgInitCommitment, msgTFHESubmit]

theorem messages_few {S : Schema} (h : S ∈ messages) : S.fields.length < 16 := by
  have hall : ∀ S ∈ messages, S.fields.length < 16 := by decide
  exact hall S h

/-! Writing. -/

def fieldsOf {S : Schema} (m : Values S) : List Field :=
  (List.finRange S.fields.length).map fun k => ⟨k.val + 1, .bytes (m k)⟩

def Values.size {S : Schema} (m : Values S) : ℤ := SizedBuffers.size (fieldsOf m)

def Values.marshal {S : Schema} (m : Values S) : Checked (List UInt8) :=
  SizedBuffers.marshal (fieldsOf m)

def Values.marshalTo {S : Schema} (m : Values S) (dAtA : List UInt8) :
    Checked (List UInt8 × ℤ) := SizedBuffers.marshalTo (fieldsOf m) dAtA

/-- The answer to a submission. -/
structure MsgTFHESubmitResponse where
  commitmentHash : List UInt8
  totalShards : UInt32

namespace MsgTFHESubmitResponse
variable (m : MsgTFHESubmitResponse)

def fields : List Field :=
  [⟨1, .bytes m.commitmentHash⟩, ⟨2, .varint m.totalShards.toUInt64⟩]

def size : ℤ := SizedBuffers.size m.fields

def marshal : Checked (List UInt8) := SizedBuffers.marshal m.fields

def marshalTo (dAtA : List UInt8) : Checked (List UInt8 × ℤ) :=
  SizedBuffers.marshalTo m.fields dAtA

def unmarshal (_dAtA : List UInt8) : Call MsgTFHESubmitResponse WireError Unit := pure ()

end MsgTFHESubmitResponse

/-- The answer to a commitment, which has no fields. -/
structure MsgInitCommitmentResponse where

namespace MsgInitCommitmentResponse

def size (_ : MsgInitCommitmentResponse) : ℤ := 0

def marshal (_ : MsgInitCommitmentResponse) : Checked (List UInt8) := .ok []

def marshalTo (_ : MsgInitCommitmentResponse) (dAtA : List UInt8) :
    Checked (List UInt8 × ℤ) := .ok (dAtA, 0)

-- elsewhere the number is that of the bytes written
def marshalToSizedBuffer (_ : MsgInitCommitmentResponse) (dAtA : List UInt8) :
    Checked (List UInt8 × ℤ) := .ok (dAtA, dAtA.length)

def unmarshal (_dAtA : List UInt8) : Call MsgInitCommitmentResponse WireError Unit := pure ()

end MsgInitCommitmentResponse

/-! Reading. -/

/-- The number of a field is cut to 32 bits. -/
def fieldNumber (wire : ℕ) : ℤ := ((wire / 8 : ℕ) : ℤ).bmod (2 ^ 32)

/-- The field of a number. -/
def Schema.known (S : Schema) (fieldNum : ℤ) : Option (Fin S.fields.length) :=
  (List.finRange S.fields.length).find? fun k => (k : ℤ) + 1 = fieldNum

/-- Where a value begins and where it ends, from the length in front of it. -/
def extent (dAtA : List UInt8) (iNdEx : ℕ) : Except WireError (ℕ × ℕ) := do
  let (length, iNdEx) ← readVarint dAtA iNdEx
  let byteLen := wrap length.toNat
  if byteLen < 0 then .error .invalidLength
  else
    let postIndex := wrap (iNdEx + byteLen)
    if postIndex < 0 then .error .invalidLength
    else if (dAtA.length : ℤ) < postIndex then .error .unexpectedEOF
    else return (iNdEx, postIndex.toNat)

def unmarshalValue {S : Schema} (dAtA : List UInt8) (k : Fin S.fields.length) (iNdEx : ℕ) :
    Call (Values S) WireError ℕ := do
  let (iNdEx, postIndex) ← ofExcept (extent dAtA iNdEx)
  let data ← slice dAtA iNdEx postIndex
  modifyStore fun m => Function.update m k data
  return postIndex

/-- The index behind a field that was skipped. -/
def behind (dAtA : List UInt8) (iNdEx : ℕ) (skippy : ℤ) : Except WireError ℕ :=
  if skippy < 0 ∨ wrap (iNdEx + skippy) < 0 then .error .invalidLength
  else if (dAtA.length : ℤ) < wrap (iNdEx + skippy) then .error .unexpectedEOF
  else .ok (wrap (iNdEx + skippy)).toNat

/-- A field that is not known, from its tag on. -/
def skipField {S : Schema} (dAtA : List UInt8) (preIndex : ℕ) : Call (Values S) WireError ℕ := do
  let rest ← slice dAtA preIndex dAtA.length
  let skippy ← ofExcept (skip rest)
  ofExcept (behind dAtA preIndex skippy)

/-- The number of a field, its wire type and the index behind the tag. -/
def readTag (S : Schema) (dAtA : List UInt8) (iNdEx : ℕ) : Except WireError (ℤ × ℕ × ℕ) := do
  let (wire, iNdEx) ← readVarint dAtA iNdEx
  let fieldNum := fieldNumber wire.toNat
  let wireType := (wire &&& 7).toNat
  if wireType = 4 then .error (.endGroup S.name)
  else if fieldNum ≤ 0 then .error (.illegalTag S.name fieldNum wire.toNat)
  else return (fieldNum, wireType, iNdEx)

/-- One round of the loop: the field at an index, and the index behind it. -/
def unmarshalField (S : Schema) (dAtA : List UInt8) (preIndex : ℕ) :
    Call (Values S) WireError ℕ := do
  let (fieldNum, wireType, iNdEx) ← ofExcept (readTag S dAtA preIndex)
  match S.known fieldNum with
  | some k => do
      require (wireType == 2) (.wrongWireType wireType (S.fields.get k))
      unmarshalValue dAtA k iNdEx
  | none => skipField dAtA preIndex

/-- Every round takes a byte, so there are no more rounds than bytes. -/
def unmarshalLoop (S : Schema) (dAtA : List UInt8) : (rounds iNdEx : ℕ) →
    Call (Values S) WireError Unit
  | 0, iNdEx => require (decide (iNdEx ≤ dAtA.length)) .unexpectedEOF
  | rounds + 1, iNdEx =>
      if iNdEx < dAtA.length then do
        let iNdEx ← unmarshalField S dAtA iNdEx
        unmarshalLoop S dAtA rounds iNdEx
      else require (decide (iNdEx ≤ dAtA.length)) .unexpectedEOF

def unmarshal (S : Schema) (dAtA : List UInt8) : Call (Values S) WireError Unit :=
  unmarshalLoop S dAtA dAtA.length 0

/-! What can be read. -/

/-- The bytes of one field, with the value if the field is known. -/
inductive Record (S : Schema) :
    List UInt8 → Option (Fin S.fields.length × List UInt8) → Prop
  | known {tag enc data : List UInt8} {wire : ℕ} {k : Fin S.fields.length}
      (htag : Varint tag wire) (htype : wire % 8 = 2) (hnumber : fieldNumber wire = k + 1)
      (henc : Varint enc data.length) : Record S (tag ++ (enc ++ data)) (some (k, data))
  | unknown {tag val : List UInt8} {wire : ℕ} (hitem : Item (tag ++ val))
      (htag : Varint tag wire) (hnumber : 0 < fieldNumber wire)
      (hfresh : ∀ k : Fin S.fields.length, fieldNumber wire ≠ k + 1) :
      Record S (tag ++ val) none

/-- What a field does to the message. -/
def assign {S : Schema} (m : Values S) : Option (Fin S.fields.length × List UInt8) → Values S
  | some (k, data) => Function.update m k data
  | none => m

/-- Fields one after another, and the message before and after. -/
inductive Message (S : Schema) : List UInt8 → Values S → Values S → Prop
  | nil {m : Values S} : Message S [] m m
  | cons {b rest : List UInt8} {o : Option (Fin S.fields.length × List UInt8)}
      {m m' : Values S} (hfield : Record S b o) (hrest : Message S rest (assign m o) m') :
      Message S (b ++ rest) m m'

section Reading
variable {S : Schema} {dAtA : List UInt8} {i j : ℕ} {m m' : Values S}

theorem known_none {fieldNum : ℤ} :
    S.known fieldNum = none ↔ ∀ k : Fin S.fields.length, fieldNum ≠ k + 1 := by
  rw [Schema.known, List.find?_eq_none]
  simp [List.mem_finRange, eq_comm]

theorem known_some {fieldNum : ℤ} {k : Fin S.fields.length} :
    S.known fieldNum = some k ↔ fieldNum = k + 1 := by
  have hfound : ∀ {k'}, S.known fieldNum = some k' → fieldNum = k' + 1 := by
    intro k' h
    have hk' := List.find?_some h
    exact (of_decide_eq_true hk').symm
  constructor
  · exact hfound
  · intro h
    cases hknown : S.known fieldNum with
    | none => exact absurd h (known_none.mp hknown k)
    | some k' =>
        have hk' := hfound hknown
        exact congrArg some (Fin.ext (by omega))

theorem drop_length_le {b rest : List UInt8} (h : dAtA.drop i = b ++ rest) (hi : i ≤ dAtA.length) :
    i + b.length ≤ dAtA.length := by
  have hlength := congrArg List.length h
  rw [List.length_drop, List.length_append] at hlength
  omega

/-- A value ends where its length says, and within the input. -/
theorem extent_ok (hl : dAtA.length < 2 ^ 63) {n : ℕ} :
    extent dAtA i = .ok (n, j) ↔ ∃ enc data rest, dAtA.drop i = enc ++ (data ++ rest) ∧
      Varint enc data.length ∧ i + enc.length = n ∧ n + data.length = j := by
  rw [extent, except_bind_ok]
  constructor
  · rintro ⟨⟨length, n'⟩, hread, h⟩
    obtain ⟨enc, rest, hdrop, henc, rfl⟩ := readVarint_ok.mp hread
    have hinside := length_le_of_drop hdrop henc.ne_nil
    dsimp only at h
    split_ifs at h with hneg hneg' hlong
    obtain ⟨hn, hj⟩ := Prod.mk.inj (Except.ok.inj h)
    have hsmall := (wrap_nonneg_iff (z := (length.toNat : ℤ)) (by omega)
      (by exact_mod_cast henc.lt)).mp (not_lt.mp hneg)
    rw [wrap_of_fits (by omega) hsmall] at hj hneg' hlong
    have hsum := wrap_add (by omega) (by omega) rfl (not_lt.mp hneg')
    rw [hsum] at hj hlong
    obtain ⟨data, rest', hdata, hlen⟩ := split_fixed dAtA (i + enc.length) length.toNat
      (by omega)
    rw [drop_behind hdrop] at hdata
    refine ⟨enc, data, rest', by rw [hdrop, hdata], hlen ▸ henc, hn, ?_⟩
    rw [Int.toNat_natCast] at hj
    omega
  · rintro ⟨enc, data, rest, hdrop, henc, rfl, rfl⟩
    have hinside : i + enc.length + data.length ≤ dAtA.length := by
      have hend := length_le_of_drop (List.append_assoc enc data rest ▸ hdrop)
        (List.append_ne_nil_of_left_ne_nil henc.ne_nil data)
      rw [List.length_append] at hend
      omega
    have hlen : wrap ((UInt64.ofNat data.length).toNat : ℤ) = data.length := by
      rw [varint_toNat henc, wrap_of_fits (by omega) (by omega)]
    have hend : wrap (((i + enc.length : ℕ) : ℤ) + data.length) =
        (i + enc.length + data.length : ℕ) := wrap_of_fits (by omega) (by omega)
    refine ⟨_, readVarint_of hdrop henc, ?_⟩
    dsimp only
    rw [hlen, hend, if_neg (by omega), if_neg (by omega), if_neg (by omega), Int.toNat_natCast]
    rfl

theorem behind_ok (hl : dAtA.length < 2 ^ 63) (hi : i ≤ dAtA.length) {skippy : ℤ}
    (hfits : skippy < 2 ^ 63) : behind dAtA i skippy = .ok j ↔
      ∃ n : ℕ, skippy = n ∧ i + n ≤ dAtA.length ∧ i + n = j := by
  rw [behind]
  constructor
  · intro h
    split_ifs at h with hneg hlong
    obtain ⟨hskippy, hsum⟩ := not_or.mp hneg
    obtain ⟨n, rfl⟩ := Int.eq_ofNat_of_zero_le (not_lt.mp hskippy)
    have hend := wrap_add (by omega) (by omega) rfl (not_lt.mp hsum)
    have hj := Except.ok.inj h
    rw [hend] at hj hlong
    rw [Int.toNat_natCast] at hj
    exact ⟨n, rfl, by omega, hj⟩
  · rintro ⟨n, rfl, hn, rfl⟩
    have hend : wrap ((i : ℤ) + n) = (i + n : ℕ) := wrap_of_fits (by omega) (by omega)
    rw [hend, if_neg (by omega), if_neg (by omega), Int.toNat_natCast]

theorem slice_data {n : ℕ} {data rest : List UInt8} (h : dAtA.drop n = data ++ rest)
    (hn : n ≤ dAtA.length) : slice dAtA n (n + data.length) = .ok data := by
  rw [slice_eq (by omega) (drop_length_le h hn), Nat.add_sub_cancel_left, h, List.take_left]

theorem unmarshalValue_ok (hl : dAtA.length < 2 ^ 63) {k : Fin S.fields.length} :
    unmarshalValue dAtA k i m = .ok j m' ↔
      ∃ enc data rest, dAtA.drop i = enc ++ (data ++ rest) ∧ Varint enc data.length ∧
        j = i + (enc.length + data.length) ∧ Function.update m k data = m' := by
  simp only [unmarshalValue, bind_ok, ofExcept_ok, liftM_ok, modifyStore_ok, pure_ok, Prod.exists,
    extent_ok hl]
  constructor
  · rintro ⟨n, e, _, ⟨⟨enc, data, rest, hdrop, henc, rfl, rfl⟩, rfl⟩, data', _, ⟨hslice, rfl⟩, _, _,
      rfl, rfl, rfl⟩
    have hend := length_le_of_drop hdrop henc.ne_nil
    rw [slice_data (drop_behind hdrop) hend] at hslice
    obtain rfl := Except.ok.inj hslice
    exact ⟨enc, data, rest, hdrop, henc, Nat.add_assoc .., rfl⟩
  · rintro ⟨enc, data, rest, hdrop, henc, rfl, rfl⟩
    have hend := length_le_of_drop hdrop henc.ne_nil
    exact ⟨_, _, m, ⟨⟨enc, data, rest, hdrop, henc, rfl, rfl⟩, rfl⟩, data, m,
      ⟨slice_data (drop_behind hdrop) hend, rfl⟩, (), _, rfl, Nat.add_assoc .., rfl⟩

theorem slice_rest (hi : i ≤ dAtA.length) : slice dAtA i dAtA.length = .ok (dAtA.drop i) := by
  rw [slice_eq hi le_rfl, List.take_of_length_le (by simp)]

theorem skipField_ok (hl : dAtA.length < 2 ^ 63) (hi : i ≤ dAtA.length) :
    skipField dAtA i m = .ok j m' ↔
      ∃ b rest, dAtA.drop i = b ++ rest ∧ Item b ∧ j = i + b.length ∧ m = m' := by
  have hdrop : (dAtA.drop i).length < 2 ^ 63 := by
    rw [List.length_drop]
    omega
  simp only [skipField, bind_ok, ofExcept_ok, liftM_ok, slice_rest hi, Except.ok.injEq]
  constructor
  · rintro ⟨_, _, ⟨rfl, rfl⟩, skippy, _, ⟨hskip, rfl⟩, hbehind, rfl⟩
    obtain ⟨n, rfl, hn, rfl⟩ := (behind_ok hl hi (skip_lt hdrop hskip)).mp hbehind
    obtain ⟨b, rest, hb, hitem, rfl⟩ := (skip_ok hdrop (by rw [List.length_drop]; omega)).mp hskip
    exact ⟨b, rest, hb, hitem, rfl, rfl⟩
  · rintro ⟨b, rest, hb, hitem, rfl, rfl⟩
    have hend := drop_length_le hb hi
    have hskip := (skip_ok hdrop (n := b.length) (by rw [List.length_drop]; omega)).mpr
      ⟨b, rest, hb, hitem, rfl⟩
    exact ⟨_, m, ⟨rfl, rfl⟩, _, m, ⟨hskip, rfl⟩,
      (behind_ok hl hi (by omega)).mpr ⟨b.length, rfl, hend, rfl⟩, rfl⟩

theorem readTag_ok {fieldNum : ℤ} {wireType n : ℕ} :
    readTag S dAtA i = .ok (fieldNum, wireType, n) ↔ ∃ tag rest wire,
      dAtA.drop i = tag ++ rest ∧ Varint tag wire ∧ fieldNumber wire = fieldNum ∧ 0 < fieldNum ∧
        wire % 8 = wireType ∧ wireType ≠ 4 ∧ i + tag.length = n := by
  rw [readTag, except_bind_ok, Prod.exists]
  constructor
  · rintro ⟨wire, n', hread, h⟩
    obtain ⟨tag, rest, hdrop, htag, rfl⟩ := readVarint_ok.mp hread
    dsimp only at h
    rw [wireType_toNat] at h
    split_ifs at h with htype hnumber
    obtain ⟨rfl, hrest⟩ := Prod.mk.inj (Except.ok.inj h)
    obtain ⟨rfl, rfl⟩ := Prod.mk.inj hrest
    exact ⟨tag, rest, _, hdrop, htag, rfl, not_le.mp hnumber, rfl, htype, rfl⟩
  · rintro ⟨tag, rest, wire, hdrop, htag, rfl, hnumber, rfl, htype, rfl⟩
    refine ⟨_, _, readVarint_of hdrop htag, ?_⟩
    dsimp only
    rw [wireType_toNat, varint_toNat htag, if_neg htype, if_neg (not_le.mpr hnumber)]
    rfl

/-- One round reads one field of the grammar. -/
theorem unmarshalField_ok (hl : dAtA.length < 2 ^ 63) (hi : i ≤ dAtA.length) :
    unmarshalField S dAtA i m = .ok j m' ↔
      ∃ b rest o, dAtA.drop i = b ++ rest ∧ Record S b o ∧ j = i + b.length ∧ assign m o = m' := by
  simp only [unmarshalField, bind_ok, ofExcept_ok, Prod.exists, readTag_ok]
  constructor
  · rintro ⟨_, _, _, _, ⟨⟨tag, rest, wire, hdrop, htag, rfl, hnumber, rfl, htype, rfl⟩, rfl⟩, h⟩
    cases hknown : S.known (fieldNumber wire) with
    | some k =>
        simp only [hknown, bind_ok, require_ok, beq_iff_eq, unmarshalValue_ok hl] at h
        obtain ⟨_, _, ⟨hbytes, rfl⟩, enc, data, rest', hdrop', henc, rfl, rfl⟩ := h
        rw [drop_behind hdrop] at hdrop'
        refine ⟨tag ++ (enc ++ data), rest', some (k, data), ?_,
          .known htag hbytes (known_some.mp hknown) henc, ?_, rfl⟩
        · rw [hdrop, hdrop', List.append_assoc, List.append_assoc]
        · rw [List.length_append, List.length_append, Nat.add_assoc]
    | none =>
        simp only [hknown, skipField_ok hl hi] at h
        obtain ⟨b, rest', hdrop', hitem, rfl, rfl⟩ := h
        obtain ⟨tag', val, t, rfl, ⟨v, htag', -⟩, -⟩ := hitem.tag
        have heq := hdrop.symm.trans (hdrop'.trans (List.append_assoc ..))
        obtain ⟨rfl, rfl⟩ := htag.unique htag' heq
        exact ⟨tag ++ val, rest', none, hdrop',
          .unknown hitem htag hnumber (known_none.mp hknown), rfl, rfl⟩
  · rintro ⟨b, rest, o, hdrop, hrecord, rfl, rfl⟩
    cases hrecord with
    | @known tag enc data wire k htag htype hnumber henc =>
        rw [List.append_assoc] at hdrop
        refine ⟨_, _, _, m, ⟨⟨tag, _, wire, hdrop, htag, hnumber, by omega, rfl, ?_, rfl⟩, rfl⟩, ?_⟩
        · rw [htype]
          decide
        · simp only [known_some.mpr rfl, bind_ok, require_ok, beq_iff_eq, unmarshalValue_ok hl]
          refine ⟨(), m, ⟨htype, rfl⟩, enc, data, rest, ?_, henc, ?_, rfl⟩
          · rw [drop_behind hdrop, List.append_assoc]
          · rw [List.length_append, List.length_append, Nat.add_assoc]
    | @unknown tag val wire hitem htag hnumber hfresh =>
        obtain ⟨tag', val', t, heq, ⟨v, htag', rfl⟩, htype⟩ := hitem.tag
        obtain ⟨rfl, rfl⟩ := htag.unique htag' heq
        have hskip := (skipField_ok (m := m) hl hi).mpr ⟨_, rest, hdrop, hitem, rfl, rfl⟩
        rw [List.append_assoc] at hdrop
        refine ⟨_, _, _, m, ⟨⟨tag, _, wire, hdrop, htag, rfl, hnumber, rfl, htype, rfl⟩, rfl⟩, ?_⟩
        simp only [known_none.mpr hfresh]
        exact hskip

theorem Record.ne_nil {b : List UInt8} {o : Option (Fin S.fields.length × List UInt8)}
    (h : Record S b o) : b ≠ [] := by
  cases h with
  | known htag => exact List.append_ne_nil_of_left_ne_nil htag.ne_nil _
  | unknown _ htag => exact List.append_ne_nil_of_left_ne_nil htag.ne_nil _

theorem message_nil : Message S [] m m' ↔ m = m' := by
  constructor
  · intro h
    generalize hb : ([] : List UInt8) = b at h
    cases h with
    | nil => rfl
    | cons hfield =>
        exact absurd (List.append_eq_nil_iff.mp hb.symm).1 hfield.ne_nil
  · rintro rfl
    exact .nil

theorem Message.first {b : List UInt8} (h : Message S b m m') (hb : b ≠ []) :
    ∃ c rest o, b = c ++ rest ∧ Record S c o ∧ Message S rest (assign m o) m' := by
  cases h with
  | nil => exact absurd rfl hb
  | cons hfield hrest => exact ⟨_, _, _, rfl, hfield, hrest⟩

theorem unmarshal_done (hi : i = dAtA.length) {u : Unit} :
    (require (decide (i ≤ dAtA.length)) .unexpectedEOF : Call (Values S) WireError Unit) m =
      .ok u m' ↔ Message S (dAtA.drop i) m m' := by
  rw [List.drop_eq_nil_of_le hi.ge, message_nil, require_ok, decide_eq_true hi.le]
  exact and_iff_right rfl

/-- The loop reads fields up to the end of the input. -/
theorem unmarshalLoop_ok (hl : dAtA.length < 2 ^ 63) {rounds : ℕ} (hi : i ≤ dAtA.length)
    (hrounds : dAtA.length ≤ i + rounds) {u : Unit} :
    unmarshalLoop S dAtA rounds i m = .ok u m' ↔ Message S (dAtA.drop i) m m' := by
  induction rounds generalizing i m with
  | zero => exact unmarshal_done (by omega)
  | succ rounds ih =>
      rw [unmarshalLoop]
      split_ifs with hlt
      · simp only [bind_ok, unmarshalField_ok hl hi]
        constructor
        · rintro ⟨_, _, ⟨b, rest, o, hdrop, hrecord, rfl, rfl⟩, hloop⟩
          have hend := length_le_of_drop hdrop hrecord.ne_nil
          have hpos := List.length_pos_iff.mpr hrecord.ne_nil
          have hrest := (ih hend (by omega)).mp hloop
          rw [drop_behind hdrop] at hrest
          rw [hdrop]
          exact .cons hrecord hrest
        · intro h
          obtain ⟨b, rest, o, hdrop, hrecord, hrest⟩ := h.first fun hnil =>
            not_le.mpr hlt (List.drop_eq_nil_iff.mp hnil)
          have hend := length_le_of_drop hdrop hrecord.ne_nil
          have hpos := List.length_pos_iff.mpr hrecord.ne_nil
          refine ⟨_, _, ⟨b, rest, o, hdrop, hrecord, rfl, rfl⟩, (ih hend (by omega)).mpr ?_⟩
          rwa [drop_behind hdrop]
      · exact unmarshal_done (by omega)

theorem unmarshal_ok (hl : dAtA.length < 2 ^ 63) {u : Unit} :
    unmarshal S dAtA m = .ok u m' ↔ Message S dAtA m m' :=
  unmarshalLoop_ok hl (Nat.zero_le _) (by omega)

/-! No index leaves the input. -/

theorem bind_ne_panic {σ ε α β : Type} {x : Call σ ε α} {f : α → Call σ ε β} {s : σ}
    (hx : ∀ r, x s ≠ .panic r) (hf : ∀ a u, x s = .ok a u → ∀ r, f a u ≠ .panic r) (r : String) :
    (x >>= f) s ≠ .panic r := by
  cases hs : x s with
  | ok a u =>
      rw [bind_of_ok hs]
      exact hf a u hs r
  | err e u =>
      have herr := (bind_err x f).mpr (.inl hs)
      rw [herr]
      exact nofun
  | panic r' => exact absurd hs (hx r')

theorem unmarshalValue_returns (hl : dAtA.length < 2 ^ 63) {k : Fin S.fields.length}
    (r : String) : unmarshalValue dAtA k i m ≠ .panic r := by
  apply bind_ne_panic
  · exact NoPanic.ofExcept _ m
  · rintro ⟨n, e⟩ u h
    obtain ⟨⟨enc, data, rest, hdrop, henc, rfl, rfl⟩, -⟩ :=
      (and_congr_left' (extent_ok hl)).mp ((ofExcept_ok _).mp h)
    have hend := length_le_of_drop hdrop henc.ne_nil
    dsimp only
    rw [slice_data (drop_behind hdrop) hend]
    exact nofun

theorem skipField_returns (hi : i ≤ dAtA.length) (r : String) :
    skipField dAtA i m ≠ .panic r := by
  rw [skipField, slice_rest hi]
  exact NoPanic.bind (.ofExcept _) (fun _ => .ofExcept _) m r

theorem unmarshalField_returns (hl : dAtA.length < 2 ^ 63) (hi : i ≤ dAtA.length) (r : String) :
    unmarshalField S dAtA i m ≠ .panic r := by
  apply bind_ne_panic
  · exact NoPanic.ofExcept _ m
  · rintro ⟨fieldNum, wireType, n⟩ u h
    dsimp only
    cases S.known fieldNum with
    | some k =>
        exact bind_ne_panic (NoPanic.require _ _ u) fun _ _ _ => unmarshalValue_returns hl
    | none => exact skipField_returns hi

theorem unmarshalLoop_returns (hl : dAtA.length < 2 ^ 63) {rounds : ℕ} (hi : i ≤ dAtA.length)
    (r : String) : unmarshalLoop S dAtA rounds i m ≠ .panic r := by
  induction rounds generalizing i m r with
  | zero => exact NoPanic.require _ _ m r
  | succ rounds ih =>
      rw [unmarshalLoop]
      split_ifs with hlt
      · apply bind_ne_panic (unmarshalField_returns hl hi)
        intro j u h
        obtain ⟨b, rest, o, hdrop, hrecord, rfl, -⟩ := (unmarshalField_ok hl hi).mp h
        exact ih (length_le_of_drop hdrop hrecord.ne_nil)
      · exact NoPanic.require _ _ m r

/-! Messages one after another. -/

theorem Message.append {b c : List UInt8} {m₀ m₁ m₂ : Values S} (hb : Message S b m₀ m₁)
    (hc : Message S c m₁ m₂) : Message S (b ++ c) m₀ m₂ := by
  induction hb with
  | nil => exact hc
  | cons hfield _ ih =>
      rw [List.append_assoc]
      exact .cons hfield (ih hc)

/-- The field at the start of a string is determined. -/
theorem Record.unique {b b' rest rest' : List UInt8}
    {o o' : Option (Fin S.fields.length × List UInt8)} (h : Record S b o) (h' : Record S b' o')
    (heq : b ++ rest = b' ++ rest') (hl : (b ++ rest).length < 2 ^ 63) (m : Values S) :
    b = b' ∧ assign m o = assign m o' := by
  have hread := (unmarshalField_ok (m := m) hl (Nat.zero_le _)).mpr
    ⟨b, rest, o, List.drop_zero, h, rfl, rfl⟩
  rw [(unmarshalField_ok (m := m) hl (Nat.zero_le _)).mpr
    ⟨b', rest', o', heq, h', rfl, rfl⟩] at hread
  obtain ⟨hindex, hvalues⟩ := Outcome.ok.inj hread
  exact ⟨(List.append_inj heq (by omega)).1, hvalues.symm⟩

theorem Message.append_iff {b c : List UInt8} {m₀ m₁ m₂ : Values S} (hb : Message S b m₀ m₁)
    (hl : (b ++ c).length < 2 ^ 63) : Message S (b ++ c) m₀ m₂ ↔ Message S c m₁ m₂ := by
  refine ⟨?_, hb.append⟩
  induction hb with
  | nil => exact id
  | @cons b rest o m _ hfield _ ih =>
      rw [List.append_assoc] at hl ⊢
      intro h
      obtain ⟨b', rest', o', hall, hfield', hrest'⟩ := h.first
        (List.append_ne_nil_of_left_ne_nil hfield.ne_nil _)
      obtain ⟨rfl, hvalues⟩ := hfield.unique hfield' hall hl m
      rw [← hvalues, ← List.append_cancel_left hall] at hrest'
      apply ih _ hrest'
      rw [List.length_append] at hl
      omega

end Reading

/-! What was written is read back. -/

section RoundTrip
variable {S : Schema}

theorem tagByte_varint {k : ℕ} (hk : k < 15) :
    Varint [tagByte (k + 1) 2] (8 * (k + 1) + 2) := by
  have hbyte : (tagByte (k + 1) 2).toNat = 8 * (k + 1) + 2 := ofNat_byte (by omega)
  refine ⟨?_, Nat.le_add_left 1 9, ?_⟩
  · rw [Terminated, if_pos]
    rw [group_lt_iff, hbyte]
    omega
  · rw [groupsValue, groupsValue, hbyte]
    omega

theorem fieldNumber_tag {k : ℕ} (hk : k < 15) :
    fieldNumber (8 * (k + 1) + 2) = (k : ℤ) + 1 := by
  have hdiv : (8 * (k + 1) + 2) / 8 = k + 1 := by omega
  unfold fieldNumber
  rw [hdiv, Int.bmod_eq_of_le (by omega) (by omega)]
  rfl

/-- A field that is not empty is written as the grammar has it. -/
theorem wire_record (hfew : S.fields.length < 16) {m : Values S} {k : Fin S.fields.length}
    (hk : (m k).length ≠ 0) (hfits : (m k).length < 2 ^ 64) :
    Record S (wire ⟨k.val + 1, .bytes (m k)⟩) (some (k, m k)) := by
  have hlt : k.val < 15 := by omega
  rw [wire_bytes, if_neg hk]
  exact .known (tagByte_varint hlt) (by omega) (fieldNumber_tag hlt) (groups_varint hfits)

/-- Fields that are empty leave the message alone. -/
def overwrite (m₀ m : Values S) : Values S := fun k => if (m k).length = 0 then m₀ k else m k

theorem fields_message (hfew : S.fields.length < 16) {m : Values S}
    (hfits : ∀ k, (m k).length < 2 ^ 64) (ks : List (Fin S.fields.length)) (m₀ : Values S) :
    Message S (encoding (ks.map fun k => ⟨k.val + 1, .bytes (m k)⟩)) m₀
      fun k => if k ∈ ks then overwrite m₀ m k else m₀ k := by
  induction ks generalizing m₀ with
  | nil =>
      simp only [List.not_mem_nil, if_false]
      exact .nil
  | cons k ks ih =>
      rw [List.map_cons, encoding_cons]
      by_cases hk : (m k).length = 0
      · have hsame : (fun k' => if k' ∈ k :: ks then overwrite m₀ m k' else m₀ k') =
            fun k' => if k' ∈ ks then overwrite m₀ m k' else m₀ k' := by
          funext k'
          by_cases heq : k' = k
          · simp [heq, overwrite, hk]
          · simp [heq]
        rw [wire_bytes, if_pos hk, List.nil_append, hsame]
        exact ih m₀
      · have hsame : (fun k' => if k' ∈ k :: ks then overwrite m₀ m k' else m₀ k') =
            fun k' => if k' ∈ ks then overwrite (Function.update m₀ k (m k)) m k'
              else Function.update m₀ k (m k) k' := by
          funext k'
          by_cases heq : k' = k
          · subst heq
            simp [overwrite, hk]
          · simp [heq, overwrite]
        rw [hsame]
        exact .cons (wire_record hfew hk (hfits k)) (ih _)

theorem encoding_fits {m : Values S} (h : (encoding (fieldsOf m)).length < 2 ^ 63)
    (k : Fin S.fields.length) : (m k).length < 2 ^ 64 := by
  have hfield : (⟨k.val + 1, .bytes (m k)⟩ : Field) ∈ fieldsOf m :=
    List.mem_map.mpr ⟨k, List.mem_finRange k, rfl⟩
  have hwire := wire_length_le hfield
  have hbytes := bytes_length_le (k.val + 1) (m k)
  omega

theorem message_fieldsOf (hfew : S.fields.length < 16) {m : Values S}
    (h : (encoding (fieldsOf m)).length < 2 ^ 63) (m₀ : Values S) :
    Message S (encoding (fieldsOf m)) m₀ (overwrite m₀ m) := by
  have hall := fields_message hfew (encoding_fits h) (List.finRange S.fields.length) m₀
  simp only [List.mem_finRange, if_true] at hall
  exact hall

theorem overwrite_empty (m : Values S) : overwrite (fun _ => []) m = m := by
  funext k
  rw [overwrite]
  split_ifs with hk
  · exact (List.length_eq_zero_iff.mp hk).symm
  · rfl

end RoundTrip

/-- The room that is made is the room the fields take, every write stays within it, and
the fields stand in it in the order of their numbers. -/
structure Written (fields : List Field) (size : ℤ) (marshal : Checked (List UInt8))
    (marshalTo : List UInt8 → Checked (List UInt8 × ℤ)) : Prop where
  size_eq : size = (encoding fields).length
  marshal_eq : marshal = .ok (encoding fields)
  marshalTo_eq : ∀ head tail : List UInt8, head.length = (encoding fields).length →
    marshalTo (head ++ tail) = .ok (encoding fields ++ tail, ((encoding fields).length : ℤ))

theorem written {fields : List Field} (h : (encoding fields).length < 2 ^ 63) :
    Written fields (SizedBuffers.size fields) (SizedBuffers.marshal fields)
      (SizedBuffers.marshalTo fields) :=
  ⟨SizedBuffers.size_eq h, SizedBuffers.marshal_eq h,
    fun _ _ hroom => SizedBuffers.marshalTo_eq h hroom⟩

/-- Every message is written as its fields one after another, the two answers with bodies
of their own included. That to a commitment has no fields; given a buffer of its own it
returns the buffer's length, though it writes nothing. -/
theorem messages_written :
    (∀ (S : Schema) (m : Values S), (encoding (fieldsOf m)).length < 2 ^ 63 →
      Written (fieldsOf m) m.size m.marshal m.marshalTo) ∧
    (∀ m : MsgTFHESubmitResponse, (encoding m.fields).length < 2 ^ 63 →
      Written m.fields m.size m.marshal m.marshalTo) ∧
    ∀ m : MsgInitCommitmentResponse, Written [] m.size m.marshal m.marshalTo ∧
      ∀ dAtA, m.marshalToSizedBuffer dAtA = .ok (dAtA, (dAtA.length : ℤ)) := by
  refine ⟨fun S m h => written h, fun m h => written h, fun m => ⟨⟨rfl, rfl, ?_⟩, fun _ => rfl⟩⟩
  intro head tail hroom
  obtain rfl := List.length_eq_zero_iff.mp hroom
  rfl

def sampleSubmit : Values msgTFHESubmit := fun k => if k.val = 0 then [122] else [1, 2, 3]

theorem sampleSubmit_encoding :
    encoding (fieldsOf sampleSubmit) = [10, 1, 122, 18, 3, 1, 2, 3] := by
  simp [encoding, fieldsOf, sampleSubmit, msgTFHESubmit, List.finRange, wire, groups, tagByte]

theorem sampleSubmit_fits : (encoding (fieldsOf sampleSubmit)).length < 2 ^ 63 := by
  rw [sampleSubmit_encoding]
  decide

theorem sampleSubmit_written : sampleSubmit.marshal = .ok [10, 1, 122, 18, 3, 1, 2, 3] := by
  have h := (messages_written.1 msgTFHESubmit sampleSubmit sampleSubmit_fits).marshal_eq
  rwa [sampleSubmit_encoding] at h

/-- What is written of the messages that are read field by field is read back, into
whatever message: a field that was empty keeps what the message held. The answer to a
submission is read back only where it stood already. -/
theorem messages_read_back :
    (∀ S ∈ messages, ∀ m m₀ : Values S, (encoding (fieldsOf m)).length < 2 ^ 63 →
      ∃ enc, m.marshal = .ok enc ∧ unmarshal S enc m₀ = .ok () (overwrite m₀ m) ∧
        unmarshal S enc (fun _ => []) = .ok () m) ∧
    ∀ m m₀ : MsgTFHESubmitResponse, (encoding m.fields).length < 2 ^ 63 →
      ∃ enc, m.marshal = .ok enc ∧
        (MsgTFHESubmitResponse.unmarshal enc m₀ = .ok () m ↔ m₀ = m) := by
  constructor
  · intro S hS m m₀ h
    have hfew := messages_few hS
    refine ⟨_, marshal_eq h, (unmarshal_ok h).mpr (message_fieldsOf hfew h m₀), ?_⟩
    have hread := (unmarshal_ok h (u := ())).mpr (message_fieldsOf hfew h fun _ => [])
    rwa [overwrite_empty] at hread
  · intro m m₀ h
    refine ⟨_, marshal_eq h, ?_⟩
    rw [MsgTFHESubmitResponse.unmarshal, pure_ok]
    exact and_iff_right rfl

theorem sampleSubmit_read_back : ∃ enc, sampleSubmit.marshal = .ok enc ∧
    unmarshal msgTFHESubmit enc (fun _ => []) = .ok () sampleSubmit := by
  obtain ⟨enc, hwritten, -, hread⟩ := messages_read_back.1 msgTFHESubmit (by decide) sampleSubmit
    sampleSubmit sampleSubmit_fits
  exact ⟨enc, hwritten, hread⟩

/-! What is accepted. -/

/-- The last value that a list of fields has for a field. -/
def latest {S : Schema} (k : Fin S.fields.length) :
    List (List UInt8 × Option (Fin S.fields.length × List UInt8)) → Option (List UInt8)
  | [] => none
  | (_, o) :: records =>
      (latest k records).or (o.bind fun e => if e.1 = k then some e.2 else none)

section Acceptance
variable {S : Schema} {m m' : Values S}
  {records : List (List UInt8 × Option (Fin S.fields.length × List UInt8))}

theorem assign_apply (m : Values S) (o : Option (Fin S.fields.length × List UInt8))
    (k : Fin S.fields.length) :
    assign m o k = (o.bind fun e => if e.1 = k then some e.2 else none).getD (m k) := by
  rcases o with - | ⟨k', data⟩
  · rfl
  · rw [assign, Option.bind_some]
    split_ifs with hk
    · subst hk
      exact Function.update_self ..
    · exact Function.update_of_ne (Ne.symm hk) ..

theorem getD_or {α : Type} (o o' : Option α) (a : α) :
    (o.or o').getD a = o.getD (o'.getD a) := by
  cases o <;> rfl

/-- A string of fields, each with what it holds, and the message they leave. -/
theorem message_iff {dAtA : List UInt8} : Message S dAtA m m' ↔
    ∃ records, dAtA = (records.map Prod.fst).flatten ∧ (∀ r ∈ records, Record S r.1 r.2) ∧
      ∀ k, m' k = (latest k records).getD (m k) := by
  constructor
  · intro h
    induction h with
    | nil => exact ⟨[], rfl, by simp, fun _ => rfl⟩
    | @cons b rest o m m' hfield _ ih =>
        obtain ⟨records, rfl, hall, hvalues⟩ := ih
        refine ⟨(b, o) :: records, rfl, List.forall_mem_cons.mpr ⟨hfield, hall⟩, fun k => ?_⟩
        rw [hvalues, latest, getD_or, assign_apply]
  · rintro ⟨records, rfl, hall, hvalues⟩
    induction records generalizing m with
    | nil =>
        obtain rfl : m' = m := funext hvalues
        exact .nil
    | cons r records ih =>
        obtain ⟨hfield, hall⟩ := List.forall_mem_cons.mp hall
        refine .cons hfield (ih hall fun k => ?_)
        rw [hvalues, latest, getD_or, assign_apply]

end Acceptance

/-- Whatever the bytes, no index leaves them, and a message is read from exactly those
that are fields one after another: known ones with the right wire type, or others with
all they hold. The last value of a field is kept, and a field that does not occur keeps
what it held. The two answers with bodies of their own accept all bytes and set nothing. -/
theorem unmarshal_accepts {dAtA : List UInt8} (hl : dAtA.length < 2 ^ 63) :
    (∀ (S : Schema) (m : Values S), (∀ r, unmarshal S dAtA m ≠ .panic r) ∧
      ∀ m', unmarshal S dAtA m = .ok () m' ↔
        ∃ records, dAtA = (records.map Prod.fst).flatten ∧ (∀ r ∈ records, Record S r.1 r.2) ∧
          ∀ k, m' k = (latest k records).getD (m k)) ∧
    (∀ m, MsgTFHESubmitResponse.unmarshal dAtA m = .ok () m) ∧
    ∀ m, MsgInitCommitmentResponse.unmarshal dAtA m = .ok () m :=
  ⟨fun _ _ => ⟨unmarshalLoop_returns hl (Nat.zero_le _),
    fun _ => (unmarshal_ok hl).trans message_iff⟩, fun _ => rfl, fun _ => rfl⟩

theorem sampleSubmit_read (m₀ : Values msgTFHESubmit) :
    unmarshal msgTFHESubmit (encoding (fieldsOf sampleSubmit)) m₀ =
      .ok () (overwrite m₀ sampleSubmit) :=
  (unmarshal_ok sampleSubmit_fits).mpr (message_fieldsOf (by decide) sampleSubmit_fits m₀)

theorem sampleSubmit_accepted : ∃ records : List (List UInt8 × Option (Fin 2 × List UInt8)),
    [10, 1, 122, 18, 3, 1, 2, 3] = (records.map Prod.fst).flatten ∧
    (∀ r ∈ records, Record msgTFHESubmit r.1 r.2) ∧
    ∀ k, sampleSubmit k = (latest (S := msgTFHESubmit) k records).getD [] := by
  have hread := sampleSubmit_read fun _ => []
  rw [overwrite_empty] at hread
  have h := (((unmarshal_accepts sampleSubmit_fits).1 _ fun _ => []).2 sampleSubmit).mp hread
  rwa [sampleSubmit_encoding] at h

/-- Bytes that are read as one message may be followed by those of another, which is then
read on top of it; and nothing else may follow. -/
theorem unmarshal_concat {S : Schema} {b c : List UInt8} (hl : (b ++ c).length < 2 ^ 63)
    {m₀ m₁ : Values S} (hb : unmarshal S b m₀ = .ok () m₁) (m₂ : Values S) :
    unmarshal S (b ++ c) m₀ = .ok () m₂ ↔ unmarshal S c m₁ = .ok () m₂ := by
  have hlengths : (b ++ c).length = b.length + c.length := List.length_append
  have hmessage := (unmarshal_ok (by omega)).mp hb
  rw [unmarshal_ok hl, unmarshal_ok (by omega), hmessage.append_iff hl]

theorem sampleSubmit_twice :
    unmarshal msgTFHESubmit (encoding (fieldsOf sampleSubmit) ++ encoding (fieldsOf sampleSubmit))
      (fun _ => []) = .ok () (overwrite sampleSubmit sampleSubmit) := by
  have hread := sampleSubmit_read fun _ => []
  rw [overwrite_empty] at hread
  exact (unmarshal_concat (by rw [sampleSubmit_encoding]; decide) hread _).mpr
    (sampleSubmit_read sampleSubmit)

end Zytherion.MessageCodec
