import Mathlib.Data.Bool.AllAny
import Mathlib.Data.List.Basic

/-!
# The bech32 text form of byte strings

A human-readable part, the separator `1`, the bytes regrouped into five-bit
symbols, and a six-symbol checksum. Decoding takes the text after the last
separator, regroups it and accepts exactly when encoding the result gives the
text back; that one test subsumes the checksum and the zero padding. Lower-case
and upper-case texts are accepted, mixed ones are not.
-/
namespace Zytherion.Bech32

def charset : List Char := "qpzry9x8gf2tvdw0s3jn54khce6mua7l".toList

def ofBits (bits : List Bool) : ℕ := bits.foldl (fun n b => 2 * n + b.toNat) 0

def toBits (w n : ℕ) : List Bool := (List.range w).map fun i => n.testBit (w - 1 - i)

def byteBits (bytes : List UInt8) : List Bool := bytes.flatMap fun b => toBits 8 b.toNat

/-- Five-bit groups, the last one filled up with zeros. -/
def fives : List Bool → List (List Bool)
  | [] => []
  | [a] => [[a, false, false, false, false]]
  | [a, b] => [[a, b, false, false, false]]
  | [a, b, c] => [[a, b, c, false, false]]
  | [a, b, c, d] => [[a, b, c, d, false]]
  | a :: b :: c :: d :: e :: rest => [a, b, c, d, e] :: fives rest

/-- Whole bytes only; fewer than eight trailing bits are dropped. -/
def eights : List Bool → List UInt8
  | a :: b :: c :: d :: e :: f :: g :: h :: rest =>
      UInt8.ofNat (ofBits [a, b, c, d, e, f, g, h]) :: eights rest
  | _ => []

def symbols (bytes : List UInt8) : List ℕ := (fives (byteBits bytes)).map ofBits

def symbolChar (v : ℕ) : Char := charset.getD v 'q'

def symbolBits (c : Char) : List Bool := toBits 5 (charset.idxOf c)

def generator : List ℕ := [0x3b6a57b2, 0x26508e6d, 0x1ea119fa, 0x3d4233dd, 0x2a1462b3]

def polymodStep (chk v : ℕ) : ℕ :=
  let top := chk >>> 25
  (generator.zipIdx.foldl (fun acc gi => if top.testBit gi.2 then acc ^^^ gi.1 else acc)
    (((chk &&& 0x1ffffff) <<< 5) ^^^ v))

def polymod (values : List ℕ) : ℕ := values.foldl polymodStep 1

def expandPart (part : List Char) : List ℕ :=
  part.map (fun c => c.toNat >>> 5) ++ 0 :: part.map (fun c => c.toNat &&& 31)

def checksum (part : List Char) (values : List ℕ) : List ℕ :=
  let p := polymod (expandPart part ++ values ++ [0, 0, 0, 0, 0, 0]) ^^^ 1
  (List.range 6).map fun i => (p >>> (5 * (5 - i))) &&& 31

/-- The characters after the separator. -/
def dataPart (part : List Char) (bytes : List UInt8) : List Char :=
  (symbols bytes ++ checksum part (symbols bytes)).map symbolChar

def encodeChars (part : List Char) (bytes : List UInt8) : List Char :=
  part ++ '1' :: dataPart part bytes

/-- The text after the last separator. -/
def afterLast (cs : List Char) : List Char := (cs.reverse.takeWhile (· ≠ '1')).reverse

def decodeChars (cs : List Char) : Option (List Char × List UInt8) :=
  if cs.any Char.isUpper && cs.any Char.isLower then none
  else
    let lower := cs.map Char.toLower
    let data := afterLast lower
    let part := lower.take (lower.length - data.length - 1)
    let bytes := eights ((data.take (data.length - 6)).flatMap symbolBits)
    if encodeChars part bytes = lower then some (part, bytes) else none

theorem ofBits_toBits_eight (b : UInt8) : UInt8.ofNat (ofBits (toBits 8 b.toNat)) = b := by
  have h : ∀ i : Fin 256, ofBits (toBits 8 i.val) = i.val := by decide +kernel
  have hb : ofBits (toBits 8 b.toNat) = b.toNat := h ⟨b.toNat, b.toNat_lt⟩
  rw [hb]
  exact UInt8.ofNat_toNat

/-- Regrouping whole bytes and a short tail gives the bytes back. -/
theorem eights_byteBits (bytes : List UInt8) (tail : List Bool) (ht : tail.length < 8) :
    eights (byteBits bytes ++ tail) = bytes := by
  induction bytes with
  | nil =>
      show eights tail = []
      unfold eights
      split
      · simp only [List.length_cons] at ht
        omega
      · rfl
  | cons b bs ih =>
      show UInt8.ofNat (ofBits (toBits 8 b.toNat)) :: eights (byteBits bs ++ tail) = b :: bs
      rw [ofBits_toBits_eight, ih]

theorem symbolBits_symbolChar (a b c d e : Bool) :
    symbolBits (symbolChar (ofBits [a, b, c, d, e])) = [a, b, c, d, e] := by
  revert a b c d e
  decide +kernel

/-- Reading the symbols of a bit string gives it back with at most four zeros. -/
theorem fives_read (bits : List Bool) :
    ∃ k < 5, (((fives bits).map ofBits).map symbolChar).flatMap symbolBits =
      bits ++ List.replicate k false := by
  fun_induction fives bits with
  | case1 => exact ⟨0, by omega, rfl⟩
  | case2 a => exact ⟨4, by omega, by simp [symbolBits_symbolChar]⟩
  | case3 a b => exact ⟨3, by omega, by simp [symbolBits_symbolChar]⟩
  | case4 a b c => exact ⟨2, by omega, by simp [symbolBits_symbolChar]⟩
  | case5 a b c d => exact ⟨1, by omega, by simp [symbolBits_symbolChar]⟩
  | case6 a b c d e rest ih =>
      obtain ⟨k, hk, h⟩ := ih
      refine ⟨k, hk, ?_⟩
      simp only [List.map_cons, List.flatMap_cons, symbolBits_symbolChar, h]
      rfl

theorem symbolChar_mem (v : ℕ) : symbolChar v ∈ charset := by
  unfold symbolChar
  rw [List.getD_eq_getElem?_getD]
  cases h : charset[v]? with
  | none => decide
  | some c => exact List.mem_of_getElem? h

theorem charset_plain : ∀ c ∈ charset,
    c.toLower = c ∧ c.isUpper = false ∧ c ≠ '1' ∧ c ≠ '/' :=
  -- over the list: the quantifier itself may be decided by going through all characters
  List.all_iff_forall_prop.mp (by decide)

theorem dataPart_plain (part : List Char) (bytes : List UInt8) :
    ∀ c ∈ dataPart part bytes, c.toLower = c ∧ c.isUpper = false ∧ c ≠ '1' ∧ c ≠ '/' := by
  intro c hc
  obtain ⟨v, -, rfl⟩ := List.mem_map.mp hc
  exact charset_plain _ (symbolChar_mem v)

theorem afterLast_append (head tail : List Char) (h : ∀ c ∈ tail, c ≠ '1') :
    afterLast (head ++ '1' :: tail) = tail := by
  unfold afterLast
  rw [List.reverse_append, List.reverse_cons, List.append_assoc,
    List.takeWhile_append_of_pos (by simpa using h)]
  simp

/-- A lower-case human-readable part is recovered with the bytes. -/
theorem decodeChars_encodeChars (part : List Char) (bytes : List UInt8)
    (hp : ∀ c ∈ part, c.toLower = c ∧ c.isUpper = false) :
    decodeChars (encodeChars part bytes) = some (part, bytes) := by
  have hd := dataPart_plain part bytes
  have hupper : (encodeChars part bytes).any Char.isUpper = false := by
    rw [List.any_eq_false]
    intro c hc
    rcases List.mem_append.mp hc with h | h
    · simp [(hp c h).2]
    · rcases List.mem_cons.mp h with rfl | h
      · decide
      · simp [(hd c h).2.1]
  have hlower : (encodeChars part bytes).map Char.toLower = encodeChars part bytes := by
    refine (List.map_congr_left fun c hc => ?_).trans (List.map_id _)
    rcases List.mem_append.mp hc with h | h
    · exact (hp c h).1
    · rcases List.mem_cons.mp h with rfl | h
      · decide
      · exact (hd c h).1
  have hafter : afterLast (encodeChars part bytes) = dataPart part bytes :=
    afterLast_append part _ fun c hc => (hd c hc).2.2.1
  have hpart : (encodeChars part bytes).take
      ((encodeChars part bytes).length - (dataPart part bytes).length - 1) = part := by
    have hlen : part.length + ((dataPart part bytes).length + 1) -
        (dataPart part bytes).length - 1 = part.length := by omega
    simp [encodeChars, hlen]
  have hbytes : eights (((dataPart part bytes).take
      ((dataPart part bytes).length - 6)).flatMap symbolBits) = bytes := by
    have htake : (dataPart part bytes).take ((dataPart part bytes).length - 6) =
        (symbols bytes).map symbolChar := by
      simp [dataPart, checksum]
    obtain ⟨k, hk, hread⟩ := fives_read (byteBits bytes)
    rw [htake, symbols, hread]
    exact eights_byteBits bytes _ (by simpa using by omega)
  simp only [decodeChars, hupper, Bool.false_and, Bool.false_eq_true, if_false, hlower, hafter,
    hpart, hbytes, if_true]

end Zytherion.Bech32
