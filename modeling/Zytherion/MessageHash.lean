import Zytherion.ByteStrings
import Zytherion.StablecoinMsgServer
import Zytherion.Devnet

/-!
# What a post-quantum signature covers

A signature is taken over the hash of a domain label, the sender's bytes, the
denomination and the expiration height, one after the other. The kind of
operation, its amounts and the owner it targets are not among them. Read from
the right, the eight bytes of the height and then, for senders of one address
length, the sender and the denomination are recovered; that is all the hash
fixes.
-/
namespace Zytherion.MessageHash

open GoCall KeyedStore SdkMath Application ChainState StablecoinKeeper StablecoinMsgServer
open ByteStrings Devnet

/-- What an operation asks for beyond its sender and denomination. -/
inductive Operation where
  | mint (collateralAmount requestedZytd : SdkInt)
  | burn (zytdAmount : SdkInt)
  | liquidate (targetOwner : AccAddress)
deriving DecidableEq

/-- A message of the stablecoin without the key and the signature it carries. -/
structure Request where
  sender : AccAddress
  ibcDenom : String
  operation : Operation
  expirationBlockHeight : Int64
deriving DecidableEq

/-- The byte string `buildZYTDMsgHash` writes to the hash. -/
def hashed (sender : AccAddress) (ibcDenom : String) (expiration : Int64) : List UInt8 :=
  "zytherion/zytd/v1/".toUTF8.toList ++ sender.bytes ++ ibcDenom.toUTF8.toList ++
    heightBytes expiration

theorem buildZYTDMsgHash_eq (A : App) (sender : AccAddress) (d : String) (expiration : Int64) :
    buildZYTDMsgHash A sender d expiration = A.sha3Sum256 (hashed sender d expiration) := rfl

namespace Request
variable {A : App}

def preimage (m : Request) : List UInt8 := hashed m.sender m.ibcDenom m.expirationBlockHeight

/-- The signature check the handler of the message makes. -/
def checkSig (ctx : Ctx A) (m : Request) (pubKey sig : List UInt8) : Exec Unit :=
  verifyZYTDPQCSig ctx m.sender m.ibcDenom m.expirationBlockHeight pubKey sig

end Request

section Bytes

@[simp] theorem heightBytes_length (height : Int64) : (heightBytes height).length = 8 := by
  simp [heightBytes]

/-- A number below `256 ^ k` is determined by its `k` lowest bytes. -/
theorem eq_of_bytes_eq (k : ℕ) {m n : ℕ} (hm : m < 256 ^ k) (hn : n < 256 ^ k)
    (h : ∀ i < k, m / 256 ^ i % 256 = n / 256 ^ i % 256) : m = n := by
  induction k generalizing m n with
  | zero => omega
  | succ k ih =>
      have hhigh : m / 256 = n / 256 := by
        apply ih
        · rw [Nat.div_lt_iff_lt_mul (by decide), ← pow_succ]
          exact hm
        · rw [Nat.div_lt_iff_lt_mul (by decide), ← pow_succ]
          exact hn
        · intro i hi
          rw [Nat.div_div_eq_div_mul, Nat.div_div_eq_div_mul, ← pow_succ']
          exact h (i + 1) (by omega)
      have hlow : m % 256 = n % 256 := by simpa using h 0 (by omega)
      omega

theorem heightBytes_inj {h₁ h₂ : Int64} (h : heightBytes h₁ = heightBytes h₂) : h₁ = h₂ := by
  have hnat : h₁.toUInt64.toNat = h₂.toUInt64.toNat := by
    apply eq_of_bytes_eq 8 h₁.toUInt64.toNat_lt h₂.toUInt64.toNat_lt
    intro i hi
    have hbyte := List.map_inj_left.mp h i (List.mem_range.mpr hi)
    simpa using congrArg UInt8.toNat hbyte
  have hword : h₁.toUInt64 = h₂.toUInt64 := UInt64.toNat_inj.mp hnat
  cases h₁
  cases h₂
  simpa using hword

end Bytes

/-- The height is read off the end; in front of it sender and denomination run
into each other. -/
theorem preimage_eq_iff (m₁ m₂ : Request) :
    m₁.preimage = m₂.preimage ↔
      m₁.sender.bytes ++ m₁.ibcDenom.toUTF8.toList = m₂.sender.bytes ++ m₂.ibcDenom.toUTF8.toList ∧
        m₁.expirationBlockHeight = m₂.expirationBlockHeight := by
  simp only [Request.preimage, hashed, List.append_assoc, List.append_cancel_left_eq]
  simp only [← List.append_assoc]
  constructor
  · intro h
    obtain ⟨hfront, hheight⟩ := List.append_inj' h (by simp)
    exact ⟨hfront, heightBytes_inj hheight⟩
  · rintro ⟨hfront, hheight⟩
    rw [hfront, hheight]

theorem AccAddress_ext {a b : AccAddress} (h : a.bytes = b.bytes) : a = b := by
  cases a
  cases b
  simpa using h

theorem preimage_binds {m₁ m₂ : Request}
    (hlen : m₁.sender.bytes.length = m₂.sender.bytes.length) :
    m₁.preimage = m₂.preimage ↔ m₁.sender = m₂.sender ∧ m₁.ibcDenom = m₂.ibcDenom ∧
      m₁.expirationBlockHeight = m₂.expirationBlockHeight := by
  rw [preimage_eq_iff]
  constructor
  · rintro ⟨hfront, hheight⟩
    obtain ⟨hsender, hdenom⟩ := List.append_inj hfront hlen
    exact ⟨AccAddress_ext hsender, utf8_inj hdenom, hheight⟩
  · rintro ⟨hsender, hdenom, hheight⟩
    rw [hsender, hdenom]
    exact ⟨rfl, hheight⟩

/-- What a signature covers. Between senders of one address length the hash fixes
the sender, the denomination and the expiration; it is the same, and so is the
check of any signature, whatever operation these three belong to. -/
theorem signature_scope (m₁ m₂ : Request) :
    (m₁.preimage = m₂.preimage ↔
      m₁.sender.bytes ++ m₁.ibcDenom.toUTF8.toList = m₂.sender.bytes ++ m₂.ibcDenom.toUTF8.toList ∧
        m₁.expirationBlockHeight = m₂.expirationBlockHeight) ∧
    (m₁.sender.bytes.length = m₂.sender.bytes.length → (m₁.preimage = m₂.preimage ↔
      m₁.sender = m₂.sender ∧ m₁.ibcDenom = m₂.ibcDenom ∧
        m₁.expirationBlockHeight = m₂.expirationBlockHeight)) ∧
    (m₁.sender.bytes.length = m₂.sender.bytes.length → m₁.preimage = m₂.preimage →
      ∀ (A : App) (ctx : Ctx A) (pubKey sig : List UInt8) (s : State),
        m₁.checkSig ctx pubKey sig s = m₂.checkSig ctx pubKey sig s) := by
  refine ⟨preimage_eq_iff m₁ m₂, preimage_binds, ?_⟩
  intro hlen h A ctx pubKey sig s
  obtain ⟨hsender, hdenom, hheight⟩ := (preimage_binds hlen).mp h
  rw [Request.checkSig, Request.checkSig, hsender, hdenom, hheight]

section Collisions

def mintRequest : Request := ⟨alice, "uzytc", .mint (.newInt 1000) (.newInt 400), 5⟩

def burnRequest : Request := ⟨alice, "uzytc", .burn (.newInt 7), 5⟩

/-- One byte longer than `alice`: the denomination's first letter became the
address's last byte. -/
def aliceA : AccAddress := ⟨alice.bytes ++ [65], by decide, by decide⟩

def shortSender : Request := ⟨alice, "ATOM", .burn (.newInt 7), 5⟩

def longSender : Request := ⟨aliceA, "TOM", .burn (.newInt 7), 5⟩

/-- A mint and a burn hash the same bytes, and so do messages of two senders
whose addresses differ in length. -/
theorem preimage_collides :
    (mintRequest.preimage = burnRequest.preimage ∧
      mintRequest.operation ≠ burnRequest.operation) ∧
    (shortSender.preimage = longSender.preimage ∧ shortSender.sender ≠ longSender.sender ∧
      shortSender.ibcDenom ≠ longSender.ibcDenom) := by
  refine ⟨⟨rfl, by decide⟩, ?_, by decide, by decide⟩
  rw [preimage_eq_iff]
  simp only [byteArray_toList]
  exact ⟨by decide +kernel, rfl⟩

/-- So the signature of the mint is accepted for the burn. -/
theorem signature_scope_mint_burn :
    mintRequest.sender.bytes.length = burnRequest.sender.bytes.length ∧
    mintRequest.preimage = burnRequest.preimage ∧
    ∀ (A : App) (ctx : Ctx A) (pubKey sig : List UInt8) (s : State),
      mintRequest.checkSig ctx pubKey sig s = burnRequest.checkSig ctx pubKey sig s :=
  ⟨rfl, ((signature_scope mintRequest burnRequest).2.1 rfl).mpr ⟨rfl, rfl, rfl⟩,
    (signature_scope mintRequest burnRequest).2.2 rfl rfl⟩

end Collisions

end Zytherion.MessageHash
