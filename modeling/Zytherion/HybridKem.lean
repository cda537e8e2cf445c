import Zytherion.Application
import Zytherion.ByteStrings

/-!
# The hybrid key exchange

The initiator encapsulates a secret to the responder's Kyber key and makes a fresh
X25519 key. The responder decapsulates the secret, makes an X25519 key of its own and
agrees on a second secret with the initiator's public key. Both derive a session key
with HKDF: the initiator from the first secret alone, the responder from the two.

The key that is derived is 32 bytes long in the code. Its type is left open here, so
that a derivation without collisions is among those considered.
-/
namespace Zytherion.HybridKem

open GoCall Application ByteStrings

def hybridHKDFInfo : String := "zytherion/hybrid-kem/kyber1024+x25519/v1"

/-- Kyber1024, X25519 and HKDF-SHA256. Randomness is an argument, and decapsulation
inverts encapsulation. -/
structure KemLibs (Key : Type) where
  kyberKeyPair : (seed : List UInt8) → List UInt8 × List UInt8
  kyberEncapsulate : (pubBytes coins : List UInt8) → Except Err (List UInt8 × List UInt8)
  kyberDecapsulate : (privBytes ciphertext : List UInt8) → Except Err (List UInt8)
  decapsulate_encapsulate : ∀ seed coins ct ss,
    kyberEncapsulate (kyberKeyPair seed).1 coins = .ok (ct, ss) →
    kyberDecapsulate (kyberKeyPair seed).2 ct = .ok ss
  generateKey : (random : List UInt8) → Except Err (List UInt8)
  publicKey : (privateKey : List UInt8) → Vector UInt8 32
  ecdh : (privateKey : List UInt8) → (remote : Vector UInt8 32) → Except Err (Vector UInt8 32)
  hkdf : (ikm info : List UInt8) → Key

structure HybridKEMResult (Key : Type) where
  sessionKey : Key
  kyberCiphertext : List UInt8
  x25519PubKey : List UInt8

section Exchange
variable {Key : Type} (L : KemLibs Key)

def wrapErr {α : Type} (context : String) (x : Except Err α) : Except Err α :=
  x.mapError (.wrap context)

/-- Reading 32 bytes from HKDF does not fail. -/
def deriveSessionKey (kyberSS x25519SS : List UInt8) : Key :=
  L.hkdf (kyberSS ++ x25519SS) (utf8 hybridHKDFInfo)

/-- X25519 takes any 32 bytes as a public key. -/
def newPublicKey (key : List UInt8) : Except Err (Vector UInt8 32) :=
  if h : key.length = 32 then .ok ⟨key.toArray, h⟩
  else .error (.plain "crypto/ecdh: invalid public key")

def hybridEncapsulate (coins random : List UInt8) (responderKyberPub : List UInt8) :
    Except Err (HybridKEMResult Key) := do
  let (kyberCT, kyberSS) ← wrapErr "hybrid KEM: kyber encapsulate"
    (L.kyberEncapsulate responderKyberPub coins)
  let x25519Priv ← wrapErr "hybrid KEM: x25519 keygen" (L.generateKey random)
  return ⟨deriveSessionKey L kyberSS [], kyberCT, (L.publicKey x25519Priv).toList⟩

/-- The second secret, if the initiator sent a key of the right length. -/
def x25519Secret (random : List UInt8) (initiatorX25519Pub : List UInt8) :
    Except Err (List UInt8) :=
  if initiatorX25519Pub.length = 32 then do
    let responderX25519Priv ← wrapErr "hybrid KEM: x25519 keygen" (L.generateKey random)
    let initiatorPubKey ← wrapErr "hybrid KEM: x25519 parse pub" (newPublicKey initiatorX25519Pub)
    let x25519SS ← wrapErr "hybrid KEM: x25519 ECDH" (L.ecdh responderX25519Priv initiatorPubKey)
    return x25519SS.toList
  else .ok []

def hybridDecapsulate (random : List UInt8)
    (responderKyberPriv kyberCT initiatorX25519Pub : List UInt8) : Except Err Key := do
  let kyberSS ← wrapErr "hybrid KEM: kyber decapsulate"
    (L.kyberDecapsulate responderKyberPriv kyberCT)
  let x25519SS ← x25519Secret L random initiatorX25519Pub
  return deriveSessionKey L kyberSS x25519SS

end Exchange

section Agreement
variable {Key : Type} {L : KemLibs Key}

theorem wrapErr_ok {α : Type} {context : String} {x : Except Err α} {a : α} :
    wrapErr context x = .ok a ↔ x = .ok a := mapError_ok

theorem newPublicKey_toList (key : Vector UInt8 32) : newPublicKey key.toList = .ok key := by
  rw [newPublicKey, dif_pos (by rw [Vector.length_toList])]
  rfl

theorem hybridEncapsulate_ok {coins random pub : List UInt8} {r : HybridKEMResult Key} :
    hybridEncapsulate L coins random pub = .ok r ↔ ∃ ct ss priv,
      L.kyberEncapsulate pub coins = .ok (ct, ss) ∧ L.generateKey random = .ok priv ∧
      r = ⟨deriveSessionKey L ss [], ct, (L.publicKey priv).toList⟩ := by
  simp only [hybridEncapsulate, except_bind_ok, wrapErr_ok, Prod.exists, pure, Except.pure,
    Except.ok.injEq, exists_and_left, eq_comm (a := r)]

theorem x25519Secret_ok {random x : List UInt8} {key : Vector UInt8 32} :
    x25519Secret L random key.toList = .ok x ↔ ∃ priv ss,
      L.generateKey random = .ok priv ∧ L.ecdh priv key = .ok ss ∧ x = ss.toList := by
  rw [x25519Secret, if_pos (by rw [Vector.length_toList])]
  simp only [except_bind_ok, wrapErr_ok, newPublicKey_toList, pure, Except.pure,
    Except.ok.injEq, exists_eq_left', exists_and_left, eq_comm (a := x)]

theorem hybridDecapsulate_ok {random priv ct pub : List UInt8} {key : Key} :
    hybridDecapsulate L random priv ct pub = .ok key ↔ ∃ ss x,
      L.kyberDecapsulate priv ct = .ok ss ∧ x25519Secret L random pub = .ok x ∧
      deriveSessionKey L ss x = key := by
  simp only [hybridDecapsulate, except_bind_ok, wrapErr_ok, pure, Except.pure, Except.ok.injEq,
    exists_and_left]

/-- The responder agrees on a second secret, and HKDF does not tell it from none. -/
def SecretIgnored (L : KemLibs Key) (random kyberSS : List UInt8)
    (initiatorX25519Pub : Vector UInt8 32) : Prop :=
  ∃ priv ss, L.generateKey random = .ok priv ∧ L.ecdh priv initiatorX25519Pub = .ok ss ∧
    L.hkdf (kyberSS ++ ss.toList) (utf8 hybridHKDFInfo) = L.hkdf kyberSS (utf8 hybridHKDFInfo)

/-- The second secret goes into the responder's key alone. -/
theorem handshake_agrees_iff (L : KemLibs Key) (seed coins random random' : List UInt8)
    (r : HybridKEMResult Key)
    (h : hybridEncapsulate L coins random (L.kyberKeyPair seed).1 = .ok r) :
    hybridDecapsulate L random' (L.kyberKeyPair seed).2 r.kyberCiphertext r.x25519PubKey =
        .ok r.sessionKey ↔
      ∃ kyberSS pub, L.kyberDecapsulate (L.kyberKeyPair seed).2 r.kyberCiphertext = .ok kyberSS ∧
        r.x25519PubKey = pub.toList ∧ SecretIgnored L random' kyberSS pub := by
  obtain ⟨ct, ss, priv, hkyber, -, rfl⟩ := hybridEncapsulate_ok.mp h
  have hss := L.decapsulate_encapsulate seed coins ct ss hkyber
  simp only [hybridDecapsulate_ok, x25519Secret_ok, hss, Except.ok.injEq, Vector.toList_inj,
    SecretIgnored, deriveSessionKey, List.append_nil]
  constructor
  · rintro ⟨_, _, rfl, ⟨priv', ss', hpriv, hecdh, rfl⟩, hkey⟩
    exact ⟨ss, _, rfl, rfl, priv', ss', hpriv, hecdh, hkey⟩
  · rintro ⟨_, _, rfl, rfl, priv', ss', hpriv, hecdh, hkey⟩
    exact ⟨ss, _, rfl, ⟨priv', ss', hpriv, hecdh, rfl⟩, hkey⟩

/-- A derivation without collisions tells the two keys apart, whatever is drawn. -/
theorem not_secretIgnored (hinj : ∀ info, Function.Injective fun ikm => L.hkdf ikm info)
    (random kyberSS : List UInt8) (pub : Vector UInt8 32) :
    ¬ SecretIgnored L random kyberSS pub := by
  rintro ⟨priv, ss, -, -, hkey⟩
  have hsame : kyberSS ++ ss.toList = kyberSS := hinj _ hkey
  have hlen := congrArg List.length hsame
  rw [List.length_append, Vector.length_toList] at hlen
  omega

end Agreement

section Samples

def padded (b : List UInt8) : Vector UInt8 32 := Vector.ofFn fun i => b.getD i 0

def echoEncapsulate (_pub coins : List UInt8) : Except Err (List UInt8 × List UInt8) :=
  .ok (coins, coins)

theorem echo_inverse (seed coins ct ss : List UInt8)
    (h : echoEncapsulate seed coins = .ok (ct, ss)) :
    (Except.ok ct : Except Err (List UInt8)) = .ok ss := by
  obtain ⟨rfl, rfl⟩ := Prod.mk.inj (Except.ok.inj h)
  rfl

/-- Secrets that are sent in the open, and a derivation of choice. -/
def echoKem (hkdf : List UInt8 → List UInt8 → List UInt8) : KemLibs (List UInt8) where
  kyberKeyPair seed := (seed, seed)
  kyberEncapsulate := echoEncapsulate
  kyberDecapsulate _ ct := .ok ct
  decapsulate_encapsulate := echo_inverse
  generateKey random := .ok random
  publicKey := padded
  ecdh priv remote := .ok (Vector.zipWith (· + ·) (padded priv) remote)
  hkdf := hkdf

def keepIkm (ikm _info : List UInt8) : List UInt8 := ikm

/-- With a derivation that keeps all of its input, the two ends disagree. -/
theorem handshake_disagrees :
    (∀ info, Function.Injective fun ikm => (echoKem keepIkm).hkdf ikm info) ∧
    ∃ r key, hybridEncapsulate (echoKem keepIkm) [1] [2] [3] = .ok r ∧
      hybridDecapsulate (echoKem keepIkm) [4] [3] r.kyberCiphertext r.x25519PubKey = .ok key ∧
      key ≠ r.sessionKey := by
  refine ⟨fun _ _ _ h => h, _, _, rfl, rfl, fun hsame => ?_⟩
  have hlen := congrArg List.length hsame
  simp [deriveSessionKey, echoKem, keepIkm] at hlen

/-- With one that forgets all of it they agree. -/
theorem handshake_agrees_constant : ∃ r,
    hybridEncapsulate (echoKem fun _ _ => [0]) [1] [2] [3] = .ok r ∧
    hybridDecapsulate (echoKem fun _ _ => [0]) [4] [3] r.kyberCiphertext r.x25519PubKey =
      .ok r.sessionKey :=
  ⟨_, rfl, (handshake_agrees_iff (echoKem fun _ _ => [0]) [3] [1] [2] [4] _ rfl).mpr
    ⟨[1], padded [2], rfl, rfl, [4], _, rfl, rfl, rfl⟩⟩

end Samples

end Zytherion.HybridKem
