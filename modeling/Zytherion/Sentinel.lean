import Zytherion.LwrHash

/-!
# The sentinel transaction

The first transaction of a proposal is not a transaction of a user but a record
of the block's hash and clock. It begins with a marker and a version, continues
with the hash, the clock's state and the number of its steps, and ends with a
proof preceded by its length.

The parser reads the record back with two checks on lengths. Neither the version
nor the end of the record is among what it looks at, and the length of the
proof is read after a check that does not count it.
-/
namespace Zytherion.Sentinel

open GoCall LwrHash ByteStrings

def lwrMarkerUint32 : ℕ := 0x4C575248
def lwrVersion : ℕ := 0x00000001
def lwrHeaderSize : ℕ := 4 + 4
def povlRootSize : ℕ := poVLStateSize
def povlStepSize : ℕ := 8

def buildPoVLSentinel (lwrHash povlRoot : List UInt8) (steps : ℕ) (proof : List UInt8) :
    List UInt8 :=
  bigEndian 4 lwrMarkerUint32 ++ bigEndian 4 lwrVersion ++ copied lwrHashSize lwrHash ++
    copied povlRootSize povlRoot ++ bigEndian povlStepSize steps ++ bigEndian 4 proof.length ++
    proof

@[ext] structure SentinelData where
  claimedHash : List UInt8
  claimedPoVLRoot : List UInt8
  claimedSteps : ℕ
  claimedProof : List UInt8

/-- The fields behind the header, read one after the other. -/
def readFields (sentinel : List UInt8) : Checked (Except String SentinelData) := do
  let offset := lwrHeaderSize
  let claimedHash ← slice sentinel offset (offset + lwrHashSize)
  let offset := offset + lwrHashSize
  let claimedPoVLRoot ← slice sentinel offset (offset + povlRootSize)
  let offset := offset + povlRootSize
  let stepBytes ← slice sentinel offset (offset + povlStepSize)
  let offset := offset + povlStepSize
  let lengthBytes ← slice sentinel offset (offset + 4)
  let proofLen := bigEndianValue lengthBytes
  let offset := offset + 4
  if sentinel.length < offset + proofLen then
    return .error "sentinel proof length exceeds bounds"
  else
    let claimedProof ← slice sentinel offset (offset + proofLen)
    return .ok ⟨claimedHash, claimedPoVLRoot, bigEndianValue stepBytes, claimedProof⟩

/-- The checks of `LWRProcessProposal` on the bytes of the first transaction: the
fields, or the reason for which it is rejected. -/
def parseSentinel (sentinel : List UInt8) : Checked (Except String SentinelData) :=
  if sentinel.length < lwrHeaderSize then .ok (.error "sentinel too short")
  else do
    let magic ← slice sentinel 0 4
    if bigEndianValue magic ≠ lwrMarkerUint32 then return .error "sentinel magic mismatch"
    else if sentinel.length < lwrHeaderSize + lwrHashSize + povlRootSize + povlStepSize then
      return .error "sentinel payload too short"
    else readFields sentinel

/-- The fields at their offsets: the panic is the case of a record that ends
inside the length of the proof. -/
theorem readFields_eq {b : List UInt8} (h144 : ¬ b.length < 144) : readFields b =
    if b.length < 148 then .error "slice bounds out of range"
    else if b.length < 148 + bigEndianValue ((b.drop 144).take 4) then
      .ok (.error "sentinel proof length exceeds bounds")
    else .ok (.ok ⟨(b.drop 8).take 96, (b.drop 104).take 32, bigEndianValue ((b.drop 136).take 8),
      (b.drop 148).take (bigEndianValue ((b.drop 144).take 4))⟩) := by
  have hhash : slice b 8 104 = .ok ((b.drop 8).take 96) := slice_eq (by omega) (by omega)
  have hroot : slice b 104 136 = .ok ((b.drop 104).take 32) := slice_eq (by omega) (by omega)
  have hsteps : slice b 136 144 = .ok ((b.drop 136).take 8) := slice_eq (by omega) (by omega)
  show (slice b 8 104 >>= fun claimedHash => slice b 104 136 >>= fun claimedPoVLRoot =>
    slice b 136 144 >>= fun stepBytes => slice b 144 148 >>= fun lengthBytes =>
      if b.length < 148 + bigEndianValue lengthBytes then
        pure (Except.error "sentinel proof length exceeds bounds")
      else slice b 148 (148 + bigEndianValue lengthBytes) >>= fun claimedProof =>
        pure (Except.ok (SentinelData.mk claimedHash claimedPoVLRoot (bigEndianValue stepBytes)
          claimedProof))) = _
  rw [hhash, checked_ok_bind, hroot, checked_ok_bind, hsteps, checked_ok_bind]
  by_cases h148 : b.length < 148
  · rw [slice_fails h148, if_pos h148]
    rfl
  have hlength : slice b 144 148 = .ok ((b.drop 144).take 4) := slice_eq (by omega) (by omega)
  rw [if_neg h148, hlength, checked_ok_bind]
  by_cases hproof : b.length < 148 + bigEndianValue ((b.drop 144).take 4)
  · rw [if_pos hproof, if_pos hproof]
    rfl
  rw [if_neg hproof, if_neg hproof, slice_eq (by omega) (by omega), checked_ok_bind,
    Nat.add_sub_cancel_left]
  rfl

theorem parseSentinel_eq (b : List UInt8) : parseSentinel b =
    if b.length < 8 then .ok (.error "sentinel too short")
    else if bigEndianValue (b.take 4) ≠ lwrMarkerUint32 then .ok (.error "sentinel magic mismatch")
    else if b.length < 144 then .ok (.error "sentinel payload too short")
    else readFields b := by
  by_cases h8 : b.length < 8
  · rw [if_pos h8]
    exact if_pos h8
  rw [if_neg h8, parseSentinel, if_neg (show ¬ b.length < lwrHeaderSize from h8),
    slice_zero (by omega)]
  rfl

/-- A record whose fields the parser reads as they stand: any version, and
anything after the proof. -/
def layout (version : List UInt8) (d : SentinelData) (trailing : List UInt8) : List UInt8 :=
  bigEndian 4 lwrMarkerUint32 ++ (version ++ (d.claimedHash ++ (d.claimedPoVLRoot ++
    (bigEndian 8 d.claimedSteps ++ (bigEndian 4 d.claimedProof.length ++
      (d.claimedProof ++ trailing))))))

/-- The widths of the fields. -/
structure Sized (version : List UInt8) (d : SentinelData) : Prop where
  version : version.length = 4
  hash : d.claimedHash.length = 96
  root : d.claimedPoVLRoot.length = 32
  steps : d.claimedSteps < 2 ^ 64
  proof : d.claimedProof.length < 2 ^ 32

section Layout
variable {version trailing : List UInt8} {d : SentinelData}

theorem layout_length (h : Sized version d) (trailing : List UInt8) :
    (layout version d trailing).length = 148 + d.claimedProof.length + trailing.length := by
  simp only [layout, List.length_append, bigEndian_length, h.version, h.hash, h.root]
  omega

theorem layout_take : (layout version d trailing).take 4 = bigEndian 4 lwrMarkerUint32 := by
  rw [layout, List.take_append_of_le_length (by simp), List.take_of_length_le (by simp)]

theorem drop_field {front rest : List UInt8} {i : ℕ} (h : front.length ≤ i) :
    (front ++ rest).drop i = rest.drop (i - front.length) := by
  rw [List.drop_append, List.drop_eq_nil_of_le h, List.nil_append]

theorem readFields_layout (h : Sized version d) :
    readFields (layout version d trailing) = .ok (.ok d) := by
  have hlen := layout_length h trailing
  have hhash : ((layout version d trailing).drop 8).take 96 = d.claimedHash := by
    simp [layout, drop_field, h.version, h.hash]
  have hroot : ((layout version d trailing).drop 104).take 32 = d.claimedPoVLRoot := by
    simp [layout, drop_field, h.version, h.hash, h.root]
  have hsteps : ((layout version d trailing).drop 136).take 8 = bigEndian 8 d.claimedSteps := by
    simp [layout, drop_field, h.version, h.hash, h.root]
  have hlength : ((layout version d trailing).drop 144).take 4 =
      bigEndian 4 d.claimedProof.length := by
    simp [layout, drop_field, h.version, h.hash, h.root]
  have hproof : ((layout version d trailing).drop 148).take d.claimedProof.length =
      d.claimedProof := by
    simp [layout, drop_field, h.version, h.hash, h.root]
  have hvalue : bigEndianValue (bigEndian 4 d.claimedProof.length) = d.claimedProof.length :=
    bigEndianValue_bigEndian h.proof
  have hcount : bigEndianValue (bigEndian 8 d.claimedSteps) = d.claimedSteps :=
    bigEndianValue_bigEndian h.steps
  rw [readFields_eq (by omega), hlength, hvalue, if_neg (by omega), if_neg (by omega), hhash, hroot,
    hsteps, hcount, hproof]

theorem field_length {b : List UInt8} {i k : ℕ} (h : i + k ≤ b.length) :
    ((b.drop i).take k).length = k := by
  rw [List.length_take, List.length_drop]
  omega

/-- The first four bytes are the marker. -/
def HasMarker (b : List UInt8) : Prop := bigEndianValue (b.take 4) = lwrMarkerUint32

/-- The fields at their offsets. -/
def fieldsOf (b : List UInt8) : SentinelData :=
  ⟨(b.drop 8).take 96, (b.drop 104).take 32, bigEndianValue ((b.drop 136).take 8),
    (b.drop 148).take (bigEndianValue ((b.drop 144).take 4))⟩

/-- A record long enough for its fields is laid out as what stands at their
offsets. -/
theorem eq_layout {b : List UInt8} (hmarker : HasMarker b)
    (hlen : 148 + bigEndianValue ((b.drop 144).take 4) ≤ b.length) :
    Sized ((b.drop 4).take 4) (fieldsOf b) ∧ b = layout ((b.drop 4).take 4) (fieldsOf b)
      (b.drop (148 + bigEndianValue ((b.drop 144).take 4))) := by
  have hproof := field_length hlen
  have hsteps := field_length (b := b) (i := 136) (k := 8) (by omega)
  have hlength := field_length (b := b) (i := 144) (k := 4) (by omega)
  have htake : bigEndian 4 lwrMarkerUint32 = b.take 4 := by
    rw [← hmarker]
    exact bigEndian_of_length (by rw [List.length_take]; omega)
  constructor
  · refine ⟨field_length (by omega), field_length (by omega), field_length (by omega), ?_, ?_⟩
    · exact bigEndianValue_lt_of_length hsteps
    · rw [fieldsOf, hproof]
      exact bigEndianValue_lt_of_length hlength
  · simp only [layout, fieldsOf, hproof]
    rw [htake, bigEndian_of_length hsteps, bigEndian_of_length hlength, ← drop_eq_field,
      ← drop_eq_field, ← drop_eq_field, ← drop_eq_field, ← drop_eq_field, ← drop_eq_field,
      List.take_append_drop]

/-- What the parser accepts is a layout, and it reads every layout. -/
theorem parseSentinel_ok {b : List UInt8} : parseSentinel b = .ok (.ok d) ↔
    ∃ version trailing, Sized version d ∧ b = layout version d trailing := by
  constructor
  · intro h
    rw [parseSentinel_eq] at h
    split_ifs at h with h8 hmagic h144
    · cases h
    · cases h
    · cases h
    · rw [readFields_eq h144] at h
      split_ifs at h with h148 hproof
      · cases h
      · obtain rfl : fieldsOf b = d := Except.ok.inj (Except.ok.inj h)
        obtain ⟨hsized, hb⟩ := eq_layout (not_not.mp hmagic) (by omega)
        exact ⟨_, _, hsized, hb⟩
  · rintro ⟨version, trailing, hsized, rfl⟩
    have hlen := layout_length hsized trailing
    have hmagic : bigEndianValue (bigEndian 4 lwrMarkerUint32) = lwrMarkerUint32 :=
      bigEndianValue_bigEndian (by decide)
    rw [parseSentinel_eq, if_neg (by omega), layout_take, hmagic, if_neg (not_not.mpr rfl),
      if_neg (by omega), readFields_layout hsized]

/-- It panics exactly on a marked record that ends inside the length of the proof. -/
theorem parseSentinel_returns {b : List UInt8} : (∃ r, parseSentinel b = .ok r) ↔
    ¬ (HasMarker b ∧ 144 ≤ b.length ∧ b.length < 148) := by
  rw [parseSentinel_eq, HasMarker]
  split_ifs with h8 hmagic h144
  · exact iff_of_true ⟨_, rfl⟩ (by omega)
  · exact iff_of_true ⟨_, rfl⟩ fun h => hmagic h.1
  · exact iff_of_true ⟨_, rfl⟩ (by omega)
  · rw [readFields_eq h144]
    split_ifs with h148 hproof
    · exact iff_of_false (by rintro ⟨r, ⟨⟩⟩) (not_not.mpr ⟨not_not.mp hmagic, by omega, h148⟩)
    · exact iff_of_true ⟨_, rfl⟩ (by omega)
    · exact iff_of_true ⟨_, rfl⟩ (by omega)

end Layout

end Zytherion.Sentinel
