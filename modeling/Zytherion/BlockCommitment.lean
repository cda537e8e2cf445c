import Zytherion.LwrHash

/-!
# What the hash of a block commits to

A block is hashed over its height, its step count, two hashes of 32 bytes, and
then the application hash, the proof and the transactions, written one after the
other without their lengths. The numbers and the two hashes stand at fixed
offsets and can be read back. Behind them only the bytes are covered, not where
one field ends and the next begins: two shapes of a block that take up the same
number of bytes have blocks that are hashed alike.
-/
namespace Zytherion.BlockCommitment

open LwrHash ByteStrings

structure Block where
  height : Int64
  prevHash : List UInt8
  appHash : List UInt8
  transactions : List (List UInt8)
  hash : List UInt8
  poVLStateRoot : List UInt8
  poVLProof : List UInt8
  poVLStepCount : UInt64
deriving DecidableEq

/-- The fields a block's hash is computed from. -/
def Block.hashInput (b : Block) : BlockHashInput where
  height := b.height
  prevHash := b.prevHash
  appHash := b.appHash
  transactions := b.transactions
  poVLStateRoot := b.poVLStateRoot
  poVLProof := b.poVLProof
  poVLStepCount := b.poVLStepCount

section Hashing
variable (K : Keccak)

def Block.computeHash (b : Block) : List UInt8 := generateBlockHash K b.hashInput

def newBlock (height : Int64) (prevHash appHash : List UInt8) (txs : List (List UInt8)) : Block :=
  let b : Block :=
    { height := height
      prevHash := zeroPad32 prevHash
      appHash := appHash
      transactions := txs
      hash := []
      poVLStateRoot := List.replicate poVLStateSize 0
      poVLProof := []
      poVLStepCount := 0 }
  { b with hash := b.computeHash K }

end Hashing

/-- The two hashes at fixed offsets have their full length. -/
structure Block.Sized (b : Block) : Prop where
  prevHash : b.prevHash.length = 32
  poVLStateRoot : b.poVLStateRoot.length = 32

/-- The lengths of the fields that are written without them. -/
@[ext] structure Shape where
  appHash : ℕ
  poVLProof : ℕ
  transactions : List ℕ
deriving DecidableEq

def Block.shape (b : Block) : Shape :=
  ⟨b.appHash.length, b.poVLProof.length, b.transactions.map List.length⟩

/-- How many bytes the fields take up together. -/
def Shape.size (σ : Shape) : ℕ := σ.appHash + σ.poVLProof + σ.transactions.sum

/-- The bytes behind the fixed offsets. -/
def Block.payload (b : Block) : List UInt8 := b.appHash ++ b.poVLProof ++ b.transactions.flatten

theorem Block.payload_length (b : Block) : b.payload.length = b.shape.size := by
  simp [payload, shape, Shape.size, List.length_flatten, Nat.add_assoc]

theorem word_inj {m n : UInt64} (h : bigEndian 8 m.toNat = bigEndian 8 n.toNat) : m = n := by
  have hvalue := congrArg bigEndianValue h
  rw [bigEndianValue_bigEndian m.toNat_lt, bigEndianValue_bigEndian n.toNat_lt] at hvalue
  exact UInt64.toNat_inj.mp hvalue

theorem height_inj {h k : Int64}
    (heq : bigEndian 8 h.toUInt64.toNat = bigEndian 8 k.toUInt64.toNat) :
    h = k := by
  have hword := word_inj heq
  cases h
  cases k
  simpa using hword

section Fields
variable {b b' : Block}

/-- Equal inputs agree at the fixed offsets and in the bytes behind them. -/
theorem canonicalise_eq_iff (hb : b.Sized) (hb' : b'.Sized) :
    canonicalise b.hashInput = canonicalise b'.hashInput ↔
      b.height = b'.height ∧ b.poVLStepCount = b'.poVLStepCount ∧ b.prevHash = b'.prevHash ∧
        b.poVLStateRoot = b'.poVLStateRoot ∧ b.payload = b'.payload := by
  have hlayout : ∀ {c : Block}, c.Sized → canonicalise c.hashInput =
      bigEndian 8 c.height.toUInt64.toNat ++ (bigEndian 8 c.poVLStepCount.toNat ++
        (c.prevHash ++ (c.poVLStateRoot ++ c.payload))) := by
    intro c hc
    simp only [canonicalise, Block.hashInput, Block.payload, zeroPad32,
      copied_of_length hc.prevHash, copied_of_length hc.poVLStateRoot, List.append_assoc]
  rw [hlayout hb, hlayout hb']
  constructor
  · intro h
    obtain ⟨hheight, h⟩ := List.append_inj h (by simp)
    obtain ⟨hsteps, h⟩ := List.append_inj h (by simp)
    obtain ⟨hprev, h⟩ := List.append_inj h (hb.prevHash.trans hb'.prevHash.symm)
    obtain ⟨hroot, hpayload⟩ := List.append_inj h (hb.poVLStateRoot.trans hb'.poVLStateRoot.symm)
    exact ⟨height_inj hheight, word_inj hsteps, hprev, hroot, hpayload⟩
  · rintro ⟨hheight, hsteps, hprev, hroot, hpayload⟩
    rw [hheight, hsteps, hprev, hroot, hpayload]

/-- Within one shape the bytes determine the fields. -/
theorem payload_inj (hshape : b.shape = b'.shape) (h : b.payload = b'.payload) :
    b.appHash = b'.appHash ∧ b.poVLProof = b'.poVLProof ∧ b.transactions = b'.transactions := by
  obtain ⟨happ, hproof, htxs⟩ := Shape.ext_iff.mp hshape
  simp only [Block.payload, List.append_assoc] at h
  obtain ⟨happ, h⟩ := List.append_inj h happ
  obtain ⟨hproof, h⟩ := List.append_inj h hproof
  exact ⟨happ, hproof, List.eq_iff_flatten_eq.mpr ⟨h, htxs⟩⟩

theorem hashInput_inj (hb : b.Sized) (hb' : b'.Sized) (hshape : b.shape = b'.shape)
    (h : canonicalise b.hashInput = canonicalise b'.hashInput) : b.hashInput = b'.hashInput := by
  obtain ⟨hheight, hsteps, hprev, hroot, hpayload⟩ := (canonicalise_eq_iff hb hb').mp h
  obtain ⟨happ, hproof, htxs⟩ := payload_inj hshape hpayload
  simp only [Block.hashInput, hheight, hsteps, hprev, hroot, happ, hproof, htxs]

end Fields

/-- Blocks of two shapes that are hashed over the same bytes agree in every field
the hash is computed from. -/
def Commits (σ σ' : Shape) : Prop := ∀ b b' : Block, b.Sized → b'.Sized → b.shape = σ →
  b'.shape = σ' → canonicalise b.hashInput = canonicalise b'.hashInput →
    b.hashInput = b'.hashInput

/-- A block of a given shape in which every byte is zero. -/
def zeroBlock (σ : Shape) : Block where
  height := 0
  prevHash := List.replicate 32 0
  appHash := List.replicate σ.appHash 0
  transactions := σ.transactions.map fun n => List.replicate n 0
  hash := []
  poVLStateRoot := List.replicate 32 0
  poVLProof := List.replicate σ.poVLProof 0
  poVLStepCount := 0

section Zeros
variable (σ : Shape)

theorem zeroBlock_sized : (zeroBlock σ).Sized := ⟨List.length_replicate, List.length_replicate⟩

theorem zeroBlock_shape : (zeroBlock σ).shape = σ := by
  simp [zeroBlock, Block.shape, Function.comp_def]

theorem zeroBlock_payload : (zeroBlock σ).payload = List.replicate σ.size 0 := by
  rw [List.eq_replicate_iff]
  refine ⟨by rw [Block.payload_length, zeroBlock_shape], ?_⟩
  intro x hx
  simp only [Block.payload, zeroBlock, List.mem_append, List.mem_flatten, List.mem_map] at hx
  rcases hx with (hx | hx) | ⟨_, ⟨n, -, rfl⟩, hx⟩
  · exact List.eq_of_mem_replicate hx
  · exact List.eq_of_mem_replicate hx
  · exact List.eq_of_mem_replicate hx

end Zeros

/-- The hash tells the blocks of two shapes apart exactly if the shapes are the
same or take up different numbers of bytes. -/
theorem block_commits_iff (σ σ' : Shape) : Commits σ σ' ↔ σ = σ' ∨ σ.size ≠ σ'.size := by
  constructor
  · intro h
    by_contra hnot
    obtain ⟨hne, hsize⟩ := not_or.mp hnot
    have hsame : canonicalise (zeroBlock σ).hashInput = canonicalise (zeroBlock σ').hashInput := by
      rw [canonicalise_eq_iff (zeroBlock_sized σ) (zeroBlock_sized σ')]
      refine ⟨rfl, rfl, rfl, rfl, ?_⟩
      rw [zeroBlock_payload, zeroBlock_payload, not_not.mp hsize]
    have hinput := h _ _ (zeroBlock_sized σ) (zeroBlock_sized σ') (zeroBlock_shape σ)
      (zeroBlock_shape σ') hsame
    apply hne
    rw [← zeroBlock_shape σ, ← zeroBlock_shape σ']
    injection hinput with _ _ happ htxs _ hproof _
    simp only [Block.shape, happ, htxs, hproof]
  · rintro (rfl | hsize) b b' hb hb' hσ hσ' h
    · exact hashInput_inj hb hb' (hσ.trans hσ'.symm) h
    · obtain ⟨-, -, -, -, hpayload⟩ := (canonicalise_eq_iff hb hb').mp h
      have hlen := congrArg List.length hpayload
      rw [b.payload_length, b'.payload_length, hσ, hσ'] at hlen
      exact (hsize hlen).elim

/-- What SHA3-256 is applied to. -/
def hashed (K : Keccak) (b : Block) : List UInt8 :=
  blockHashDomain ++ canonicalise b.hashInput ++
    (List.range 128).map (K.shake256 (blockHashDomain ++ canonicalise b.hashInput))

/-- Blocks of one shape with one hash have the same content, or their inputs
collide. -/
theorem computeHash_binds {K : Keccak} {b b' : Block} (hb : b.Sized) (hb' : b'.Sized)
    (hshape : b.shape = b'.shape) (h : b.computeHash K = b'.computeHash K) :
    b.hashInput = b'.hashInput ∨
      (hashed K b ≠ hashed K b' ∧ K.sum256 (hashed K b) = K.sum256 (hashed K b')) := by
  by_cases hinput : hashed K b = hashed K b'
  · obtain ⟨hdata, -⟩ := List.append_inj' hinput (by simp)
    exact .inl (hashInput_inj hb hb' hshape (List.append_cancel_left hdata))
  · exact .inr ⟨hinput, Vector.toList_inj.mp h⟩

section NewBlocks
variable (K : Keccak) (height : Int64) (prevHash appHash : List UInt8) (txs : List (List UInt8))

theorem newBlock_sized : (newBlock K height prevHash appHash txs).Sized :=
  ⟨zeroPad32_length prevHash, List.length_replicate⟩

theorem newBlock_hash : (newBlock K height prevHash appHash txs).hash =
    (newBlock K height prevHash appHash txs).computeHash K := rfl

end NewBlocks

/-- A new block's own hash fixes its content among the new blocks of its shape. -/
theorem newBlock_binds {K : Keccak} {height height' : Int64} {prevHash prevHash' : List UInt8}
    {appHash appHash' : List UInt8} {txs txs' : List (List UInt8)}
    (happ : appHash.length = appHash'.length)
    (htxs : txs.map List.length = txs'.map List.length)
    (h : (newBlock K height prevHash appHash txs).hash =
      (newBlock K height' prevHash' appHash' txs').hash) :
    (height = height' ∧ zeroPad32 prevHash = zeroPad32 prevHash' ∧ appHash = appHash' ∧
      txs = txs') ∨
      (hashed K (newBlock K height prevHash appHash txs) ≠
          hashed K (newBlock K height' prevHash' appHash' txs') ∧
        K.sum256 (hashed K (newBlock K height prevHash appHash txs)) =
          K.sum256 (hashed K (newBlock K height' prevHash' appHash' txs'))) := by
  rw [newBlock_hash, newBlock_hash] at h
  have hshape : (newBlock K height prevHash appHash txs).shape =
      (newBlock K height' prevHash' appHash' txs').shape := Shape.ext happ rfl htxs
  refine (computeHash_binds (newBlock_sized ..) (newBlock_sized ..) hshape h).imp_left ?_
  intro hinput
  injection hinput with hheight hprev happ htxs _ _ _
  exact ⟨hheight, hprev, happ, htxs⟩

/-- The block at height one with the given bytes behind the fixed offsets. -/
def firstBlock (appHash proof : List UInt8) (txs : List (List UInt8)) : Block where
  height := 1
  prevHash := List.replicate 32 0
  appHash := appHash
  transactions := txs
  hash := []
  poVLStateRoot := List.replicate 32 0
  poVLProof := proof
  poVLStepCount := 10

theorem firstBlock_sized (appHash proof : List UInt8) (txs : List (List UInt8)) :
    (firstBlock appHash proof txs).Sized := ⟨rfl, rfl⟩

/-- One transaction in place of two, a byte of the proof in the application hash,
and a transaction in place of the proof. -/
theorem boundaries_move :
    (canonicalise (firstBlock [1] [2] [[3], [4]]).hashInput =
        canonicalise (firstBlock [1] [2] [[3, 4]]).hashInput ∧
      (firstBlock [1] [2] [[3], [4]]).transactions ≠ (firstBlock [1] [2] [[3, 4]]).transactions) ∧
    (canonicalise (firstBlock [1] [2] [[3], [4]]).hashInput =
        canonicalise (firstBlock [1, 2] [] [[3], [4]]).hashInput ∧
      (firstBlock [1] [2] [[3], [4]]).appHash ≠ (firstBlock [1, 2] [] [[3], [4]]).appHash) ∧
    (canonicalise (firstBlock [1] [2] [[3], [4]]).hashInput =
        canonicalise (firstBlock [1] [] [[2], [3], [4]]).hashInput ∧
      (firstBlock [1] [2] [[3], [4]]).poVLProof ≠
        (firstBlock [1] [] [[2], [3], [4]]).poVLProof) ∧
    (firstBlock [1] [2] [[3], [4]]).Sized ∧ (firstBlock [1] [2] [[3, 4]]).Sized ∧
    (firstBlock [1, 2] [] [[3], [4]]).Sized ∧ (firstBlock [1] [] [[2], [3], [4]]).Sized :=
  ⟨⟨rfl, by decide⟩, ⟨rfl, by decide⟩, ⟨rfl, by decide⟩, firstBlock_sized .., firstBlock_sized ..,
    firstBlock_sized .., firstBlock_sized ..⟩

end Zytherion.BlockCommitment
