import Zytherion.ByteStrings
import Zytherion.CallFrames
import Zytherion.Application

/-!
# Encrypted files

A file is encrypted under a secret that is encapsulated to the receiver's Kyber key.
The output begins with the length of the encapsulation in two bytes; the encapsulation,
a nonce of twelve bytes and what AES-GCM sealed follow without separators.

The reader checks the length against the bytes it has before it cuts them up, so that it
never reaches beyond them, and a frame determines its parts. Kyber and AES-GCM are
linked: decapsulation inverts encapsulation and takes ciphertexts of one length only,
and what is opened was sealed.
-/
namespace Zytherion.FileFrames

open GoCall Application ByteStrings

def ciphertextSize : ℕ := 1568
def sharedKeySize : ℕ := 32
def gcmNonceSize : ℕ := 12
def gcmTagSize : ℕ := 16

/-- What AES-GCM seals at most. -/
def gcmMaxSize : ℕ := (2 ^ 32 - 2) * 16

/-- Kyber1024 and AES-GCM. -/
structure FileLibs where
  PublicKey : Type
  PrivateKey : Type
  keyPair : (seed : List UInt8) → PublicKey × PrivateKey
  marshalPublicKey : PublicKey → List UInt8
  unmarshalPublicKey : List UInt8 → Except Err PublicKey
  unmarshal_public : ∀ key, unmarshalPublicKey (marshalPublicKey key) = .ok key
  marshalPrivateKey : PrivateKey → List UInt8
  unmarshalPrivateKey : List UInt8 → Except Err PrivateKey
  unmarshal_private : ∀ key, unmarshalPrivateKey (marshalPrivateKey key) = .ok key
  encapsulate : PublicKey → (coins : List UInt8) → Except Err (List UInt8 × List UInt8)
  encapsulated_sizes : ∀ key coins ct ss, encapsulate key coins = .ok (ct, ss) →
    ct.length = ciphertextSize ∧ ss.length = sharedKeySize
  decapsulate : PrivateKey → List UInt8 → Except Err (List UInt8)
  decapsulate_encapsulate : ∀ seed coins ct ss, encapsulate (keyPair seed).1 coins = .ok (ct, ss) →
    decapsulate (keyPair seed).2 ct = .ok ss
  decapsulated_size : ∀ key ct ss, decapsulate key ct = .ok ss → ct.length = ciphertextSize
  aeadSeal : (key nonce plaintext : List UInt8) → List UInt8
  sealed_size : ∀ key nonce plaintext,
    (aeadSeal key nonce plaintext).length = plaintext.length + gcmTagSize
  aeadOpen : (key nonce ciphertext : List UInt8) → Option (List UInt8)
  opened_iff : ∀ key nonce ciphertext plaintext,
    aeadOpen key nonce ciphertext = some plaintext ↔ ciphertext = aeadSeal key nonce plaintext

/-- Nothing is stored. -/
abbrev FileCall (α : Type) : Type := Call Unit Err α

/-- What is drawn in an encryption; reading the nonce may fail. -/
structure Randomness where
  coins : List UInt8
  nonce : Except Err (Vector UInt8 gcmNonceSize)

section Files
variable (L : FileLibs)

def pubBytes (seed : List UInt8) : List UInt8 := L.marshalPublicKey (L.keyPair seed).1

def privBytes (seed : List UInt8) : List UInt8 := L.marshalPrivateKey (L.keyPair seed).2

def encapsulate (coins pubBytes : List UInt8) : FileCall (List UInt8 × List UInt8) := do
  let pub ← mapErr (.wrap "kyber1024: unmarshal public key")
    (ofExcept (L.unmarshalPublicKey pubBytes))
  mapErr (.wrap "kyber1024: encapsulate") (ofExcept (L.encapsulate pub coins))

def decapsulate (privBytes ciphertext : List UInt8) : FileCall (List UInt8) := do
  let priv ← mapErr (.wrap "kyber1024: unmarshal private key")
    (ofExcept (L.unmarshalPrivateKey privBytes))
  mapErr (.wrap "kyber1024: decapsulate") (ofExcept (L.decapsulate priv ciphertext))

/-- `aes.NewCipher`; `cipher.NewGCM` takes every AES cipher. -/
def newGCM (sharedSecret : List UInt8) : FileCall Unit :=
  mapErr (.wrap "kyber1024: AES init")
    (require (sharedSecret.length == 16 || sharedSecret.length == 24 || sharedSecret.length == 32)
      (.plain ("crypto/aes: invalid key size " ++ toString sharedSecret.length)))

def gcmSeal (key nonce plaintext : List UInt8) : Checked (List UInt8) := do
  panicUnless (nonce.length == gcmNonceSize)
    "crypto/cipher: incorrect nonce length given to GCM"
  panicUnless (decide (plaintext.length ≤ gcmMaxSize)) "crypto/cipher: message too large for GCM"
  return L.aeadSeal key nonce plaintext

def gcmOpen (key nonce ciphertext : List UInt8) : FileCall (List UInt8) := do
  liftM (panicUnless (nonce.length == gcmNonceSize)
    "crypto/cipher: incorrect nonce length given to GCM")
  require (decide (gcmTagSize ≤ ciphertext.length ∧ ciphertext.length ≤ gcmMaxSize + gcmTagSize))
    (.plain "cipher: message authentication failed")
  lookup (fun _ => L.aeadOpen key nonce ciphertext) (.plain "cipher: message authentication failed")

def encryptFile (r : Randomness) (pubBytes plaintext : List UInt8) : FileCall (List UInt8) := do
  let (kemCT, sharedSecret) ← encapsulate L r.coins pubBytes
  newGCM sharedSecret
  let nonce ← mapErr (.wrap "kyber1024: nonce generation") (ofExcept r.nonce)
  let encrypted ← liftM (gcmSeal L sharedSecret nonce.toList plaintext)
  let ctLen := kemCT.length
  return UInt8.ofNat (ctLen >>> 8) :: UInt8.ofNat ctLen :: (kemCT ++ nonce.toList ++ encrypted)

def decryptFile (privBytes blob : List UInt8) : FileCall (List UInt8) := do
  require (decide (2 ≤ blob.length)) (.plain "kyber1024: blob too short")
  let ctLen := (blob.getD 0 0).toNat <<< 8 ||| (blob.getD 1 0).toNat
  require (decide (2 + ctLen + 12 ≤ blob.length))
    (.plain ("kyber1024: blob truncated (need " ++ toString (2 + ctLen + 12) ++ ", have " ++
      toString blob.length ++ ")"))
  let kemCT ← liftM (slice blob 2 (2 + ctLen))
  let rest ← liftM (slice blob (2 + ctLen) blob.length)
  let sharedSecret ← decapsulate L privBytes kemCT
  newGCM sharedSecret
  require (decide (gcmNonceSize ≤ rest.length)) (.plain "kyber1024: blob missing nonce")
  let nonce ← liftM (slice rest 0 gcmNonceSize)
  let ciphertext ← liftM (slice rest gcmNonceSize rest.length)
  mapErr (.wrap "kyber1024: AES-GCM decrypt failed (wrong key or corrupted data)")
    (gcmOpen L sharedSecret nonce ciphertext)

end Files

/-- The parts of an encrypted file. -/
@[ext] structure Frame where
  lengthField : List UInt8
  kemCT : List UInt8
  nonce : List UInt8
  sealedPart : List UInt8
  lengthField_length : lengthField.length = 2
  kemCT_length : kemCT.length = bigEndianValue lengthField
  nonce_length : nonce.length = gcmNonceSize

namespace Frame

def bytes (f : Frame) : List UInt8 := f.lengthField ++ (f.kemCT ++ (f.nonce ++ f.sealedPart))

/-- The bytes determine the length, the length the encapsulation, and so on. -/
theorem bytes_inj {f g : Frame} (h : f.bytes = g.bytes) : f = g := by
  have hfield := f.lengthField_length.trans g.lengthField_length.symm
  obtain ⟨hlength, h⟩ := List.append_inj h hfield
  have hkem : f.kemCT.length = g.kemCT.length := by
    rw [f.kemCT_length, g.kemCT_length, hlength]
  obtain ⟨hkemCT, h⟩ := List.append_inj h hkem
  obtain ⟨hnonce, hsealed⟩ := List.append_inj h (f.nonce_length.trans g.nonce_length.symm)
  exact Frame.ext hlength hkemCT hnonce hsealed

/-- Bytes that are long enough for what their first two announce are a frame. -/
theorem exists_bytes {blob : List UInt8} (htwo : 2 ≤ blob.length)
    (hlong : 2 + bigEndianValue (blob.take 2) + gcmNonceSize ≤ blob.length) :
    ∃ f : Frame, f.bytes = blob := by
  have hrest : (blob.drop 2).length = blob.length - 2 := List.length_drop
  let n := bigEndianValue (blob.take 2)
  refine ⟨⟨blob.take 2, (blob.drop 2).take n, ((blob.drop 2).drop n).take gcmNonceSize,
    ((blob.drop 2).drop n).drop gcmNonceSize, ?_, ?_, ?_⟩, ?_⟩
  · exact List.length_take_of_le htwo
  · exact List.length_take_of_le (by omega)
  · apply List.length_take_of_le
    rw [List.length_drop]
    omega
  · show blob.take 2 ++ ((blob.drop 2).take n ++ (_ ++ _)) = blob
    rw [List.take_append_drop, List.take_append_drop, List.take_append_drop]

end Frame

/-- `int(a)<<8 | int(b)`. -/
theorem word_eq (a b : UInt8) : a.toNat <<< 8 ||| b.toNat = bigEndianValue [a, b] := by
  rw [← Nat.shiftLeft_add_eq_or_of_lt b.toNat_lt, Nat.shiftLeft_eq]
  show a.toNat * 2 ^ 8 + b.toNat = 256 * (256 * 0 + a.toNat) + b.toNat
  omega

theorem lengthOf_eq {blob : List UInt8} (h : 2 ≤ blob.length) :
    (blob.getD 0 0).toNat <<< 8 ||| (blob.getD 1 0).toNat = bigEndianValue (blob.take 2) := by
  match blob, h with
  | a :: b :: rest, _ => exact word_eq a b

/-- The two bytes that are written. -/
theorem lengthField_eq (n : ℕ) : [UInt8.ofNat (n >>> 8), UInt8.ofNat n] = bigEndian 2 n := by
  rw [Nat.shiftRight_eq_div_pow]
  rfl

section Frames
variable (L : FileLibs)

/-- What is done with a frame once it is cut up. -/
def openFrame (privBytes : List UInt8) (f : Frame) : FileCall (List UInt8) := do
  let sharedSecret ← decapsulate L privBytes f.kemCT
  newGCM sharedSecret
  mapErr (.wrap "kyber1024: AES-GCM decrypt failed (wrong key or corrupted data)")
    (gcmOpen L sharedSecret f.nonce f.sealedPart)

/-- A frame is cut where it was joined. -/
theorem decryptFile_bytes (priv : List UInt8) (f : Frame) :
    decryptFile L priv f.bytes = openFrame L priv f := by
  have hfield := f.lengthField_length
  have hkem := f.kemCT_length
  have hnonce := f.nonce_length
  have hrest : (f.nonce ++ f.sealedPart).length = gcmNonceSize + f.sealedPart.length := by
    rw [List.length_append, hnonce]
  have hlength : f.bytes.length = 2 + (f.kemCT.length + (f.nonce ++ f.sealedPart).length) := by
    rw [Frame.bytes, List.length_append, List.length_append, hfield]
  have htwo : 2 ≤ f.bytes.length := by omega
  have htake : f.bytes.take 2 = f.lengthField := List.take_left' hfield
  have hdrop : f.bytes.drop 2 = f.kemCT ++ (f.nonce ++ f.sealedPart) := List.drop_left' hfield
  have hkemCT : slice f.bytes 2 (2 + f.kemCT.length) = .ok f.kemCT := by
    rw [slice_eq (by omega) (by omega), hdrop, List.take_left' (by omega)]
  have hbehind : slice f.bytes (2 + f.kemCT.length) f.bytes.length =
      .ok (f.nonce ++ f.sealedPart) := by
    rw [slice_eq (by omega) (by omega), ← List.drop_drop, hdrop, List.drop_left' rfl,
      List.take_of_length_le (by omega)]
  have hnonceCut : slice (f.nonce ++ f.sealedPart) 0 gcmNonceSize = .ok f.nonce := by
    rw [slice_zero (by omega), List.take_left' hnonce]
  have hsealedCut : slice (f.nonce ++ f.sealedPart) gcmNonceSize
      (f.nonce ++ f.sealedPart).length = .ok f.sealedPart := by
    rw [slice_eq (by omega) (by omega), List.drop_left' hnonce,
      List.take_of_length_le (by omega)]
  have hlong : 2 + f.kemCT.length + 12 ≤ f.bytes.length := by
    rw [hlength, hrest, gcmNonceSize]
    omega
  have hroom : gcmNonceSize ≤ (f.nonce ++ f.sealedPart).length := by omega
  rw [decryptFile, require_bind (decide_eq_true htwo), lengthOf_eq htwo, htake, ← hkem]
  simp only [require_bind (decide_eq_true hlong), liftM_bind hkemCT, liftM_bind hbehind,
    require_bind (decide_eq_true hroom), liftM_bind hnonceCut, liftM_bind hsealedCut]
  rfl

/-- Whatever is not a frame is refused before it is cut. -/
theorem decryptFile_cases (priv blob : List UInt8) :
    (∃ e, decryptFile L priv blob () = .err e ()) ∨ ∃ f : Frame, f.bytes = blob := by
  by_cases htwo : 2 ≤ blob.length
  · by_cases hlong : 2 + bigEndianValue (blob.take 2) + 12 ≤ blob.length
    · exact .inr (Frame.exists_bytes htwo hlong)
    · left
      rw [decryptFile, require_bind (decide_eq_true htwo), lengthOf_eq htwo]
      exact ⟨_, (bind_err _ _).mpr (.inl ((require_err _ _).mpr
        ⟨decide_eq_false hlong, rfl, rfl⟩))⟩
  · left
    exact ⟨_, (bind_err _ _).mpr (.inl ((require_err _ _).mpr ⟨decide_eq_false htwo, rfl, rfl⟩))⟩

variable {L}

theorem encapsulate_ok {coins seed : List UInt8} {r : List UInt8 × List UInt8} {u : Unit} :
    encapsulate L coins (pubBytes L seed) () = .ok r u ↔
      L.encapsulate (L.keyPair seed).1 coins = .ok r := by
  simp [encapsulate, pubBytes, L.unmarshal_public]

theorem decapsulate_ok {seed ct ss : List UInt8} {u : Unit} :
    decapsulate L (privBytes L seed) ct () = .ok ss u ↔
      L.decapsulate (L.keyPair seed).2 ct = .ok ss := by
  simp [decapsulate, privBytes, L.unmarshal_private]

theorem length_of_decapsulated {priv ct ss : List UInt8}
    (h : decapsulate L priv ct () = .ok ss ()) : ct.length = ciphertextSize := by
  simp only [decapsulate, bind_ok, mapErr_ok, ofExcept_ok] at h
  obtain ⟨key, -, -, hss, -⟩ := h
  exact L.decapsulated_size key ct ss hss

theorem newGCM_ok {key : List UInt8} (h : key.length = sharedKeySize) :
    newGCM key () = .ok () () := by
  simp [newGCM, h, sharedKeySize]

theorem gcmSeal_ok {key plaintext c : List UInt8} (nonce : Vector UInt8 gcmNonceSize) :
    gcmSeal L key nonce.toList plaintext = .ok c ↔
      plaintext.length ≤ gcmMaxSize ∧ L.aeadSeal key nonce.toList plaintext = c := by
  simp [gcmSeal, pure, Except.pure]

theorem gcmOpen_ok {key nonce c plaintext : List UInt8} {u : Unit}
    (h : nonce.length = gcmNonceSize) : gcmOpen L key nonce c () = .ok plaintext u ↔
      plaintext.length ≤ gcmMaxSize ∧ c = L.aeadSeal key nonce plaintext := by
  have hsize := L.sealed_size key nonce plaintext
  simp only [gcmOpen, bind_ok, liftM_ok, panicUnless_ok, require_ok, lookup_ok, L.opened_iff]
  constructor
  · rintro ⟨_, _, _, _, _, ⟨hc, -⟩, rfl, -⟩
    have := of_decide_eq_true hc
    exact ⟨by omega, rfl⟩
  · rintro ⟨hlimit, rfl⟩
    have hfits : gcmTagSize ≤ (L.aeadSeal key nonce plaintext).length ∧
        (L.aeadSeal key nonce plaintext).length ≤ gcmMaxSize + gcmTagSize := by omega
    exact ⟨(), (), ⟨by simp [h], trivial⟩, (), (), ⟨decide_eq_true hfits, trivial⟩, rfl, trivial⟩

/-- A frame whose sealed part authenticates under the key that is decapsulated. -/
def Authenticates (L : FileLibs) (privBytes : List UInt8) (f : Frame) (plaintext : List UInt8) :
    Prop :=
  ∃ sharedSecret, decapsulate L privBytes f.kemCT () = .ok sharedSecret () ∧
    L.aeadOpen sharedSecret f.nonce f.sealedPart = some plaintext

theorem openFrame_ok {priv plaintext : List UInt8} {f : Frame} :
    openFrame L priv f () = .ok plaintext () ↔ ∃ ss, decapsulate L priv f.kemCT () = .ok ss () ∧
      newGCM ss () = .ok () () ∧ plaintext.length ≤ gcmMaxSize ∧
      f.sealedPart = L.aeadSeal ss f.nonce plaintext := by
  simp only [openFrame, bind_ok, mapErr_ok, gcmOpen_ok f.nonce_length]
  constructor
  · rintro ⟨ss, _, hss, _, _, hgcm, hopen⟩
    exact ⟨ss, hss, hgcm, hopen⟩
  · rintro ⟨ss, hss, hgcm, hopen⟩
    exact ⟨ss, (), hss, (), (), hgcm, hopen⟩

theorem openFrame_noPanic (L : FileLibs) (priv : List UInt8) (f : Frame) :
    NoPanic (openFrame L priv f) := by
  have hnonce : (f.nonce.length == gcmNonceSize) = true := by simp [f.nonce_length]
  have hpasses : panicUnless (f.nonce.length == gcmNonceSize)
      "crypto/cipher: incorrect nonce length given to GCM" = .ok () :=
    (panicUnless_ok _ _ ()).mpr hnonce
  apply NoPanic.bind
  · apply NoPanic.bind
    · exact NoPanic.mapErr _ (NoPanic.ofExcept _)
    · exact fun priv => NoPanic.mapErr _ (NoPanic.ofExcept _)
  · intro ss
    apply NoPanic.bind
    · exact NoPanic.mapErr _ (NoPanic.require _ _)
    · intro u
      apply NoPanic.mapErr
      rw [gcmOpen, liftM_bind hpasses]
      exact NoPanic.bind (NoPanic.require _ _) fun _ => NoPanic.lookup _ _

theorem decryptFile_noPanic (L : FileLibs) (priv blob : List UInt8) :
    NoPanic (decryptFile L priv blob) := by
  intro s r h
  rcases decryptFile_cases L priv blob with ⟨e, he⟩ | ⟨f, rfl⟩
  · rw [he] at h
    cases h
  · rw [decryptFile_bytes] at h
    exact openFrame_noPanic L priv f s r h

/-- The frame of an encryption. -/
def sealedFrame (L : FileLibs) (ct ss : List UInt8) (nonce : Vector UInt8 gcmNonceSize)
    (plaintext : List UInt8) (h : ct.length = ciphertextSize) : Frame where
  lengthField := bigEndian 2 ct.length
  kemCT := ct
  nonce := nonce.toList
  sealedPart := L.aeadSeal ss nonce.toList plaintext
  lengthField_length := bigEndian_length 2 _
  kemCT_length := (bigEndianValue_bigEndian (lt_of_eq_of_lt h (by decide))).symm
  nonce_length := nonce.length_toList

/-- Everything an encryption can return. -/
theorem encryptFile_ok {r : Randomness} {seed plaintext blob : List UInt8} :
    encryptFile L r (pubBytes L seed) plaintext () = .ok blob () ↔
      ∃ ct ss nonce, ∃ h : L.encapsulate (L.keyPair seed).1 r.coins = .ok (ct, ss),
        r.nonce = .ok nonce ∧ plaintext.length ≤ gcmMaxSize ∧
        (sealedFrame L ct ss nonce plaintext (L.encapsulated_sizes _ _ _ _ h).1).bytes = blob := by
  simp only [encryptFile, bind_ok, encapsulate_ok, mapErr_ok, ofExcept_ok, liftM_ok, gcmSeal_ok,
    pure_ok]
  constructor
  · rintro ⟨⟨ct, ss⟩, _, hencap, _, _, -, nonce, _, ⟨hnonce, -⟩, _, _, ⟨⟨hlimit, rfl⟩, -⟩, hout, -⟩
    refine ⟨ct, ss, nonce, hencap, hnonce, hlimit, ?_⟩
    rw [← hout, Frame.bytes, List.append_assoc]
    exact congrArg (· ++ _) (lengthField_eq ct.length).symm
  · rintro ⟨ct, ss, nonce, hencap, hnonce, hlimit, rfl⟩
    have hgcm := newGCM_ok (L.encapsulated_sizes _ _ _ _ hencap).2
    refine ⟨(ct, ss), (), hencap, (), (), hgcm, nonce, (), ⟨hnonce, trivial⟩, _, (),
      ⟨⟨hlimit, rfl⟩, trivial⟩, ?_, trivial⟩
    rw [Frame.bytes, List.append_assoc]
    exact congrArg (· ++ _) (lengthField_eq ct.length)

theorem decryptFile_encryptFile {r : Randomness} {seed plaintext blob : List UInt8}
    (h : encryptFile L r (pubBytes L seed) plaintext () = .ok blob ()) :
    decryptFile L (privBytes L seed) blob () = .ok plaintext () := by
  obtain ⟨ct, ss, nonce, hencap, -, hlimit, rfl⟩ := encryptFile_ok.mp h
  have hss := L.decapsulate_encapsulate seed r.coins ct ss hencap
  have hgcm := newGCM_ok (L.encapsulated_sizes _ _ _ _ hencap).2
  rw [decryptFile_bytes, openFrame_ok]
  exact ⟨ss, decapsulate_ok.mpr hss, hgcm, hlimit, rfl⟩

theorem accepted_splits {priv blob plaintext : List UInt8}
    (h : decryptFile L priv blob () = .ok plaintext ()) :
    ∃ f : Frame, f.bytes = blob ∧ f.kemCT.length = ciphertextSize ∧
      Authenticates L priv f plaintext ∧ ∀ g : Frame, g.bytes = blob → g = f := by
  rcases decryptFile_cases L priv blob with ⟨e, he⟩ | ⟨f, rfl⟩
  · rw [he] at h
    cases h
  · rw [decryptFile_bytes, openFrame_ok] at h
    obtain ⟨ss, hss, -, -, hsealed⟩ := h
    exact ⟨f, rfl, length_of_decapsulated hss, ⟨ss, hss, (L.opened_iff _ _ _ _).mpr hsealed⟩,
      fun g => Frame.bytes_inj⟩

/-- Encryption returns unless a library fails or the plaintext is beyond what AES-GCM
takes; what it returned is decrypted to the plaintext. Decryption returns on all bytes,
and those it accepts are one frame, in one way. -/
theorem file_frames_unambiguous (L : FileLibs) :
    (∀ seed r plaintext blob, encryptFile L r (pubBytes L seed) plaintext () = .ok blob () →
      decryptFile L (privBytes L seed) blob () = .ok plaintext ()) ∧
    (∀ seed r plaintext, (∃ sent, L.encapsulate (L.keyPair seed).1 r.coins = .ok sent) →
      (∃ nonce, r.nonce = .ok nonce) → plaintext.length ≤ gcmMaxSize →
      ∃ blob, encryptFile L r (pubBytes L seed) plaintext () = .ok blob ()) ∧
    (∀ priv blob, NoPanic (decryptFile L priv blob)) ∧
    (∀ priv blob plaintext, decryptFile L priv blob () = .ok plaintext () →
      ∃ f : Frame, f.bytes = blob ∧ f.kemCT.length = ciphertextSize ∧
        Authenticates L priv f plaintext ∧ ∀ g : Frame, g.bytes = blob → g = f) := by
  refine ⟨fun _ _ _ _ => decryptFile_encryptFile, ?_, decryptFile_noPanic L,
    fun _ _ _ => accepted_splits⟩
  rintro seed r plaintext ⟨⟨ct, ss⟩, hencap⟩ ⟨nonce, hnonce⟩ hlimit
  exact ⟨_, encryptFile_ok.mpr ⟨ct, ss, nonce, hencap, hnonce, hlimit, rfl⟩⟩

end Frames

/-! Libraries that hide nothing but keep the laws: the secret is the head of its
encapsulation, and the tag the head of the key. -/

def plainOpen (key ciphertext : List UInt8) : Option (List UInt8) :=
  if ciphertext = ciphertext.take (ciphertext.length - gcmTagSize) ++ copied gcmTagSize key then
    some (ciphertext.take (ciphertext.length - gcmTagSize))
  else none

theorem plainOpen_iff (key ciphertext plaintext : List UInt8) :
    plainOpen key ciphertext = some plaintext ↔
      ciphertext = plaintext ++ copied gcmTagSize key := by
  unfold plainOpen
  constructor
  · intro h
    split_ifs at h with hc
    rw [Option.some.injEq] at h
    rw [h] at hc
    exact hc
  · rintro rfl
    have htake : (plaintext ++ copied gcmTagSize key).take
        ((plaintext ++ copied gcmTagSize key).length - gcmTagSize) = plaintext := by
      rw [List.length_append, copied_length, Nat.add_sub_cancel, List.take_left' rfl]
    rw [htake, if_pos rfl]

def plainEncapsulate (coins : List UInt8) : Except Err (List UInt8 × List UInt8) :=
  .ok (copied ciphertextSize coins, copied sharedKeySize (copied ciphertextSize coins))

theorem plainEncapsulate_ok {coins ct ss : List UInt8} (h : plainEncapsulate coins = .ok (ct, ss)) :
    ct.length = ciphertextSize ∧ ss = copied sharedKeySize ct := by
  cases h
  exact ⟨copied_length _ _, rfl⟩

def plainDecapsulate (ct : List UInt8) : Except Err (List UInt8) :=
  if ct.length = ciphertextSize then .ok (copied sharedKeySize ct)
  else .error (.plain "kem: invalid ciphertext size")

theorem plainDecapsulate_ok {ct ss : List UInt8} :
    plainDecapsulate ct = .ok ss ↔ ct.length = ciphertextSize ∧ copied sharedKeySize ct = ss := by
  unfold plainDecapsulate
  split_ifs with h <;> simp [h]

theorem plain_sealed_size (key plaintext : List UInt8) :
    (plaintext ++ copied gcmTagSize key).length = plaintext.length + gcmTagSize := by
  rw [List.length_append, copied_length]

theorem plain_encapsulated_sizes {coins ct ss : List UInt8}
    (h : plainEncapsulate coins = .ok (ct, ss)) :
    ct.length = ciphertextSize ∧ ss.length = sharedKeySize := by
  obtain ⟨hct, rfl⟩ := plainEncapsulate_ok h
  exact ⟨hct, copied_length _ _⟩

theorem plain_decapsulate_encapsulate {coins ct ss : List UInt8}
    (h : plainEncapsulate coins = .ok (ct, ss)) : plainDecapsulate ct = .ok ss := by
  obtain ⟨hct, rfl⟩ := plainEncapsulate_ok h
  exact plainDecapsulate_ok.mpr ⟨hct, rfl⟩

def plainLibs : FileLibs where
  PublicKey := Unit
  PrivateKey := Unit
  keyPair _ := ((), ())
  marshalPublicKey _ := []
  unmarshalPublicKey _ := .ok ()
  unmarshal_public _ := rfl
  marshalPrivateKey _ := []
  unmarshalPrivateKey _ := .ok ()
  unmarshal_private _ := rfl
  encapsulate _ coins := plainEncapsulate coins
  encapsulated_sizes _ _ _ _ h := plain_encapsulated_sizes h
  decapsulate _ ct := plainDecapsulate ct
  decapsulate_encapsulate _ _ _ _ h := plain_decapsulate_encapsulate h
  decapsulated_size _ _ _ h := (plainDecapsulate_ok.mp h).1
  aeadSeal key _ plaintext := plaintext ++ copied gcmTagSize key
  sealed_size key _ plaintext := plain_sealed_size key plaintext
  aeadOpen key _ ciphertext := plainOpen key ciphertext
  opened_iff key _ ciphertext plaintext := plainOpen_iff key ciphertext plaintext

/-- Three bytes, encrypted and read back from their only frame. -/
theorem three_bytes_in_one_frame :
    ∃ blob, encryptFile plainLibs ⟨[1, 2], .ok (.replicate 12 7)⟩ (pubBytes plainLibs [])
        [10, 20, 30] () = .ok blob () ∧
      decryptFile plainLibs (privBytes plainLibs []) blob () = .ok [10, 20, 30] () ∧
      ∃ f : Frame, f.bytes = blob ∧ f.kemCT.length = ciphertextSize ∧
        Authenticates plainLibs (privBytes plainLibs []) f [10, 20, 30] ∧
        ∀ g : Frame, g.bytes = blob → g = f := by
  obtain ⟨hround, hreturns, -, hsplits⟩ := file_frames_unambiguous plainLibs
  obtain ⟨blob, hblob⟩ := hreturns [] ⟨[1, 2], .ok (.replicate 12 7)⟩ [10, 20, 30] ⟨_, rfl⟩
    ⟨_, rfl⟩ (by decide)
  have hplain := hround [] _ _ blob hblob
  exact ⟨blob, hblob, hplain, hsplits _ _ _ hplain⟩

end Zytherion.FileFrames
