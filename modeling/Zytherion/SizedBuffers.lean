import Zytherion.WireFormat
import Mathlib.Algebra.BigOperators.Group.List.Basic

/-!
# Writing a message backwards

Room is made for the whole message. Fields are written from the last to the first, each
against the start of what has been written: its value, before it the length, before that
the tag. A field without content is left out.

Every write is checked against the bounds of the buffer. A buffer is written out below as
what precedes, what is replaced and what follows.
-/
namespace Zytherion.SizedBuffers

open GoCall ByteStrings WireFormat

/-- `dAtA[i] = b`. -/
def setByte (dAtA : List UInt8) (i : ℤ) (b : UInt8) : Checked (List UInt8) :=
  if 0 ≤ i ∧ i < dAtA.length then .ok (dAtA.set i.toNat b) else .error "index out of range"

/-- `copy(dAtA[i:], src)`. -/
def copyAt (dAtA : List UInt8) (i : ℤ) (src : List UInt8) : Checked (List UInt8) :=
  if 0 ≤ i ∧ i ≤ dAtA.length then
    .ok (dAtA.take i.toNat ++ src.take (dAtA.length - i.toNat) ++
      dAtA.drop (i.toNat + src.length))
  else .error "slice bounds out of range"

/-- The loop that writes a number forwards. After nine rounds a number of 64 bits has one
group left. -/
def putGroups : (rounds : ℕ) → List UInt8 → (offset : ℤ) → UInt64 → Checked (List UInt8)
  | 0, dAtA, offset, v => setByte dAtA offset v.toUInt8
  | rounds + 1, dAtA, offset, v =>
      if 0x80 ≤ v then do
        let dAtA ← setByte dAtA offset (v &&& 0x7f ||| 0x80).toUInt8
        putGroups rounds dAtA (offset + 1) (v >>> 7)
      else setByte dAtA offset v.toUInt8

/-- A number that ends at an offset; where it begins is returned. -/
def encodeVarint (dAtA : List UInt8) (offset : ℤ) (v : UInt64) : Checked (List UInt8 × ℤ) := do
  let base := offset - sov v.toNat
  let dAtA ← putGroups 9 dAtA base v
  return (dAtA, base)

/-- What a field holds. -/
inductive Content where
  | bytes (b : List UInt8)
  | varint (v : UInt64)

structure Field where
  number : ℕ
  content : Content

/-- The tag of a field whose number is below sixteen. -/
def tagByte (number wireType : ℕ) : UInt8 := UInt8.ofNat (8 * number + wireType)

/-- A number and in front of it a tag. -/
def putHead (tag : UInt8) (v : UInt64) (dAtA : List UInt8) (i : ℤ) :
    Checked (List UInt8 × ℤ) := do
  let (dAtA, i) ← encodeVarint dAtA i v
  let dAtA ← setByte dAtA (i - 1) tag
  return (dAtA, i - 1)

def writeField (f : Field) (dAtA : List UInt8) (i : ℤ) : Checked (List UInt8 × ℤ) :=
  match f.content with
  | .bytes b =>
      if b.length = 0 then .ok (dAtA, i)
      else do
        let dAtA ← copyAt dAtA (i - b.length) b
        putHead (tagByte f.number 2) (UInt64.ofNat b.length) dAtA (i - b.length)
  | .varint v => if v = 0 then .ok (dAtA, i) else putHead (tagByte f.number 0) v dAtA i

/-- The fields in the order of their numbers, the last one written first. -/
def writeFields : List Field → List UInt8 → (i : ℤ) → Checked (List UInt8 × ℤ)
  | [], dAtA, i => .ok (dAtA, i)
  | f :: fs, dAtA, i => do
      let (dAtA, i) ← writeFields fs dAtA i
      writeField f dAtA i

def fieldSize (f : Field) : ℤ :=
  match f.content with
  | .bytes b => if b.length = 0 then 0 else 1 + b.length + sov b.length
  | .varint v => if v = 0 then 0 else 1 + sov v.toNat

def size (fs : List Field) : ℤ := fs.foldl (fun n f => wrap (n + fieldSize f)) 0

def marshalToSizedBuffer (fs : List Field) (dAtA : List UInt8) : Checked (List UInt8 × ℤ) := do
  let (written, i) ← writeFields fs dAtA dAtA.length
  return (written, dAtA.length - i)

def marshal (fs : List Field) : Checked (List UInt8) := do
  panicUnless (decide (0 ≤ size fs)) "makeslice: len out of range"
  let (dAtA, n) ← marshalToSizedBuffer fs (List.replicate (size fs).toNat 0)
  slice dAtA 0 n.toNat

/-- Into the beginning of a buffer. -/
def marshalTo (fs : List Field) (dAtA : List UInt8) : Checked (List UInt8 × ℤ) := do
  panicUnless (decide (0 ≤ size fs)) "slice bounds out of range"
  let head ← slice dAtA 0 (size fs).toNat
  let (written, n) ← marshalToSizedBuffer fs head
  return (written ++ dAtA.drop (size fs).toNat, n)

/-! What is written. -/

/-- The bytes of a field. -/
def wire (f : Field) : List UInt8 :=
  match f.content with
  | .bytes b => if b.length = 0 then [] else tagByte f.number 2 :: (groups b.length ++ b)
  | .varint v => if v = 0 then [] else tagByte f.number 0 :: groups v.toNat

theorem wire_bytes (number : ℕ) (b : List UInt8) : wire ⟨number, .bytes b⟩ =
    if b.length = 0 then [] else tagByte number 2 :: (groups b.length ++ b) := rfl

def encoding (fs : List Field) : List UInt8 := fs.flatMap wire

theorem encoding_cons (f : Field) (fs : List Field) :
    encoding (f :: fs) = wire f ++ encoding fs := List.flatMap_cons

theorem wire_length_le {f : Field} {fs : List Field} (h : f ∈ fs) :
    (wire f).length ≤ (encoding fs).length :=
  (List.sublist_flatten_of_mem (List.mem_map_of_mem h)).length_le

theorem bytes_length_le (number : ℕ) (b : List UInt8) :
    b.length ≤ (wire ⟨number, .bytes b⟩).length := by
  rw [wire_bytes]
  split_ifs with hb
  · exact hb.le
  · rw [List.length_cons, List.length_append]
    omega

theorem fieldSize_eq (f : Field) : fieldSize f = (wire f).length := by
  obtain ⟨number, b | v⟩ := f
  · simp only [fieldSize, wire]
    split_ifs
    · rfl
    · rw [List.length_cons, List.length_append, sov_eq]
      push_cast
      ring
  · simp only [fieldSize, wire]
    split_ifs
    · rfl
    · rw [List.length_cons, sov_eq]
      push_cast
      ring

theorem size_eq {fs : List Field} (h : (encoding fs).length < 2 ^ 63) :
    size fs = (encoding fs).length := by
  have hfold : ∀ (fs : List Field) (n : ℕ), n + (encoding fs).length < 2 ^ 63 →
      fs.foldl (fun n f => wrap (n + fieldSize f)) (n : ℤ) = (n + (encoding fs).length : ℕ) := by
    intro fs
    induction fs with
    | nil => exact fun n _ => rfl
    | cons f fs ih =>
        intro n hn
        rw [encoding_cons, List.length_append] at hn ⊢
        have hstep : wrap ((n : ℤ) + fieldSize f) = (n + (wire f).length : ℕ) := by
          rw [fieldSize_eq, wrap_of_fits (by omega) (by omega)]
          rfl
        rw [List.foldl_cons, hstep, ih _ (by omega), Nat.add_assoc]
  exact (hfold fs 0 (by omega)).trans (by rw [Nat.zero_add])

section Writes
variable {old : List UInt8} (pre post : List UInt8)

theorem exists_append_of_length {n m : ℕ} (h : old.length = n + m) :
    ∃ head tail, old = head ++ tail ∧ head.length = n ∧ tail.length = m := by
  refine ⟨old.take n, old.drop n, (List.take_append_drop n old).symm, ?_, ?_⟩
  · rw [List.length_take]
    omega
  · rw [List.length_drop]
    omega

theorem setByte_eq (old b : UInt8) :
    setByte (pre ++ old :: post) pre.length b = .ok (pre ++ b :: post) := by
  rw [setByte, if_pos (by simp), Int.toNat_natCast, List.set_append_right _ _ le_rfl,
    Nat.sub_self, List.set_cons_zero]

theorem copyAt_eq {src : List UInt8} (h : old.length = src.length) :
    copyAt (pre ++ old ++ post) pre.length src = .ok (pre ++ src ++ post) := by
  have hend : pre.length + src.length = (pre ++ old).length := by rw [List.length_append, h]
  have hroom : src.length ≤ (pre ++ old ++ post).length - pre.length := by
    rw [List.length_append, List.length_append]
    omega
  rw [copyAt, if_pos (by simp; omega), Int.toNat_natCast, List.take_of_length_le hroom, hend,
    List.drop_left, List.append_assoc pre old, List.take_left]

theorem putGroups_eq {rounds : ℕ} {v : UInt64} (hv : v.toNat < 128 ^ (rounds + 1))
    (hold : old.length = (groups v.toNat).length) :
    putGroups rounds (pre ++ old ++ post) pre.length v =
      .ok (pre ++ groups v.toNat ++ post) := by
  induction rounds generalizing v pre old with
  | zero =>
      have hlast : v.toNat < 128 := by omega
      rw [groups_last hlast] at hold ⊢
      obtain ⟨c, rfl⟩ := List.length_eq_one_iff.mp hold
      have hbyte : v.toUInt8 = UInt8.ofNat v.toNat := rfl
      rw [putGroups, List.append_assoc, List.singleton_append, setByte_eq, hbyte,
        List.append_assoc, List.singleton_append]
  | succ rounds ih =>
      rw [putGroups]
      split_ifs with hmore
      · have hge : 128 ≤ v.toNat := UInt64.le_iff_toNat_le.mp hmore
        rw [groups_more hge] at hold ⊢
        obtain ⟨c, old, rfl⟩ := List.exists_cons_of_length_eq_add_one hold
        have hrest : old.length = (groups (v >>> 7).toNat).length := by
          rw [high_groups]
          exact Nat.succ.inj hold
        have hnext : (v >>> 7).toNat < 128 ^ (rounds + 1) := by
          rw [high_groups, Nat.div_lt_iff_lt_mul (by decide), ← pow_succ]
          exact hv
        have hput := ih (pre ++ [UInt8.ofNat (v.toNat % 128 + 128)]) hnext hrest
        rw [List.append_assoc, List.cons_append, setByte_eq, checked_ok_bind, low_group]
        rw [high_groups] at hput
        simpa using hput
      · have hlast : v.toNat < 128 := by
          rw [UInt64.le_iff_toNat_le] at hmore
          exact Nat.lt_of_not_le hmore
        rw [groups_last hlast] at hold ⊢
        obtain ⟨c, rfl⟩ := List.length_eq_one_iff.mp hold
        have hbyte : v.toUInt8 = UInt8.ofNat v.toNat := rfl
        rw [List.append_assoc, List.singleton_append, setByte_eq, hbyte, List.append_assoc,
          List.singleton_append]

theorem encodeVarint_eq {v : UInt64} (hold : old.length = (groups v.toNat).length) :
    encodeVarint (pre ++ old ++ post) (pre ++ old).length v =
      .ok (pre ++ groups v.toNat ++ post, (pre.length : ℤ)) := by
  have hbase : ((pre ++ old).length : ℤ) - sov v.toNat = pre.length := by
    rw [List.length_append, sov_eq, ← hold]
    push_cast
    ring
  have hput := putGroups_eq pre post (v.toNat_lt.trans (by decide : 2 ^ 64 < 128 ^ (9 + 1))) hold
  simp only [encodeVarint, hbase, hput, checked_ok_bind]
  rfl

theorem putHead_eq {v : UInt64} {tag : UInt8}
    (hold : old.length = (tag :: groups v.toNat).length) :
    putHead tag v (pre ++ old ++ post) (pre ++ old).length =
      .ok (pre ++ (tag :: groups v.toNat) ++ post, (pre.length : ℤ)) := by
  obtain ⟨c, old, rfl⟩ := List.exists_cons_of_length_eq_add_one hold
  have hput := encodeVarint_eq (pre ++ [c]) post (Nat.succ.inj hold)
  have hindex : ((pre ++ [c]).length : ℤ) - 1 = pre.length := by
    rw [List.length_append, List.length_singleton]
    push_cast
    ring
  rw [List.append_cons pre c old, putHead, hput, checked_ok_bind]
  simp only [hindex, List.append_assoc, List.cons_append, List.nil_append, setByte_eq,
    checked_ok_bind]
  rfl

/-- A field takes the place of as many bytes in front of the index. -/
theorem writeField_eq {f : Field} (hold : old.length = (wire f).length)
    (hfits : (wire f).length < 2 ^ 64) :
    writeField f (pre ++ old ++ post) (pre ++ old).length =
      .ok (pre ++ wire f ++ post, (pre.length : ℤ)) := by
  obtain ⟨number, b | v⟩ := f
  · simp only [writeField, wire] at hold hfits ⊢
    split_ifs at hold hfits ⊢ with hb
    · obtain rfl := List.length_eq_zero_iff.mp hold
      rw [List.append_nil]
    · rw [List.length_cons, List.length_append] at hfits
      have hlen : (UInt64.ofNat b.length).toNat = b.length := by
        rw [UInt64.toNat_ofNat', Nat.mod_eq_of_lt (by omega)]
      -- what is replaced by the head, and what by the value
      rw [← List.cons_append, List.length_append] at hold
      obtain ⟨head, tail, rfl, hhead, htail⟩ := exists_append_of_length hold
      have hstart : ((pre ++ (head ++ tail)).length : ℤ) - b.length = (pre ++ head).length := by
        simp only [List.length_append, htail]
        push_cast
        ring
      rw [← hlen] at hhead
      rw [hstart, ← List.append_assoc pre head, copyAt_eq _ _ htail, checked_ok_bind,
        List.append_assoc (pre ++ head), putHead_eq _ _ hhead, hlen]
      simp only [List.append_assoc, List.cons_append]
  · simp only [writeField, wire] at hold hfits ⊢
    split_ifs at hold hfits ⊢ with hv
    · obtain rfl := List.length_eq_zero_iff.mp hold
      rw [List.append_nil]
    · exact putHead_eq pre post hold

theorem writeFields_eq {fs : List Field} (hold : old.length = (encoding fs).length)
    (hfits : (encoding fs).length < 2 ^ 64) :
    writeFields fs (pre ++ old ++ post) (pre ++ old).length =
      .ok (pre ++ encoding fs ++ post, (pre.length : ℤ)) := by
  induction fs generalizing pre old post with
  | nil =>
      obtain rfl := List.length_eq_zero_iff.mp hold
      rw [writeFields, encoding, List.flatMap_nil, List.append_nil]
  | cons f fs ih =>
      rw [encoding_cons, List.length_append] at hold hfits
      obtain ⟨head, tail, rfl, hhead, htail⟩ := exists_append_of_length hold
      have hrest := ih (pre ++ head) post htail (by omega)
      rw [writeFields, ← List.append_assoc pre head, hrest, checked_ok_bind]
      dsimp only
      rw [List.append_assoc (pre ++ head), writeField_eq _ _ hhead (by omega), encoding_cons]
      simp only [List.append_assoc]

end Writes

section Marshal
variable {fs : List Field} (h : (encoding fs).length < 2 ^ 63)
include h

theorem marshalToSizedBuffer_eq {dAtA : List UInt8} (hroom : dAtA.length = (encoding fs).length) :
    marshalToSizedBuffer fs dAtA = .ok (encoding fs, ((encoding fs).length : ℤ)) := by
  have hwrite := writeFields_eq [] [] hroom (by omega)
  simp only [List.nil_append, List.append_nil, List.length_nil] at hwrite
  rw [marshalToSizedBuffer, hwrite, checked_ok_bind, hroom]
  simp only [Nat.cast_zero, sub_zero]
  rfl

/-- The room that is made is the room that is needed. -/
theorem marshal_eq : marshal fs = .ok (encoding fs) := by
  have hsize := size_eq h
  rw [marshal, hsize, decide_eq_true (Int.natCast_nonneg _), panicUnless, if_pos rfl,
    checked_ok_bind, Int.toNat_natCast, marshalToSizedBuffer_eq h List.length_replicate,
    checked_ok_bind]
  dsimp only
  rw [Int.toNat_natCast, slice_zero le_rfl, List.take_length]

theorem marshalTo_eq {head tail : List UInt8} (hroom : head.length = (encoding fs).length) :
    marshalTo fs (head ++ tail) = .ok (encoding fs ++ tail, ((encoding fs).length : ℤ)) := by
  have hsize := size_eq h
  have hhead : slice (head ++ tail) 0 (encoding fs).length = .ok head := by
    rw [slice_zero (by rw [List.length_append, hroom]; omega), List.take_left' hroom]
  rw [marshalTo, hsize, decide_eq_true (Int.natCast_nonneg _), panicUnless, if_pos rfl,
    checked_ok_bind, Int.toNat_natCast, hhead, checked_ok_bind, marshalToSizedBuffer_eq h hroom,
    checked_ok_bind, List.drop_left' hroom]
  rfl

end Marshal

end Zytherion.SizedBuffers
