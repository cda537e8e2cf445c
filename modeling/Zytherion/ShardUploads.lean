import Zytherion.ShardServer
import Zytherion.SubmitAgreement

/-!
# Uploads and the shards on a node's disk

`handlePostShard` checks the Merkle proof against the root the upload itself names,
and the signature under the key the upload itself names. Anyone can name a root of
their own, so that anything can be stored under a commitment.

If every upload for a commitment names the root on the chain, and its proposer's key
if there is one, what is stored under the commitment is the shard that was submitted
and what changes it is signed, unless a request exhibits two strings with one digest.
-/
namespace Zytherion.ShardUploads

open GoCall KeyedStore Application ByteStrings Shards ShardPlacement MerkleProofs UploadText
open ShardServer

/-- A ciphertext on the chain: its shards, the tree whose root is stored and the key
of its proposer, empty if there is none. -/
structure Submitted (S : ServerLibs) where
  ciphertext : List UInt8
  shards : List ShardResult
  tree : MerkleTree
  proposerPubkey : List UInt8
  split_eq : split S.toShardLibs ciphertext = .ok shards
  tree_eq : buildMerkleTree S.toShardLibs shards = .ok tree

section Requests
variable {S : ServerLibs} {env : Environment} (sub : Submitted S)

namespace Submitted

def commitment : List UInt8 := (S.sum256 sub.ciphertext).toList

/-- What is stored under the commitment is absent or the shard that was submitted. -/
def Authentic (f : NodeFiles) : Prop :=
  ∀ sr ∈ sub.shards, f.shards.get (sub.commitment, sr.index) = none ∨
    f.shards.get (sub.commitment, sr.index) = some sr.data

/-- A request for the commitment names the root on the chain, and the proposer's key
if there is one. -/
def Pinned (body : Except Err (List UInt8)) : Prop :=
  ∀ b upload, body = .ok b → S.unmarshalUpload (b.take bodyLimit) = some upload →
    decodeString upload.commitmentHex = some sub.commitment →
    decodeString upload.merkleRootHex = some sub.tree.rootBytes ∧
      (sub.proposerPubkey ≠ [] →
        decodeString upload.proposerPubkeyHex = some sub.proposerPubkey)

/-- A string hashed to check the request collides with one hashed for the tree. -/
def Collides (body : Except Err (List UInt8)) : Prop :=
  ∃ sr ∈ sub.shards, ∃ b upload data proof, body = .ok b ∧
    S.unmarshalUpload (b.take bodyLimit) = some upload ∧
    decodeString upload.dataHex = some data ∧ decodeString upload.merkleProofHex = some proof ∧
    Collide S.toShardLibs (checkInputs S.toShardLibs sr.index.toNat data (proofPath proof))
      (treeInputs S.toShardLibs sub.shards sr)

/-- A request that changes a shard of the commitment carries that shard, signed by the
proposer if there is a key. -/
def Authorised (env : Environment) (f : NodeFiles) (body : Except Err (List UInt8)) : Prop :=
  ∀ sr ∈ sub.shards, (serve S env f body).shards.get (sub.commitment, sr.index) ≠
      f.shards.get (sub.commitment, sr.index) →
    ∃ b upload, body = .ok b ∧ S.unmarshalUpload (b.take bodyLimit) = some upload ∧
      decodeString upload.dataHex = some sr.data ∧
      (sub.proposerPubkey ≠ [] → SignedBy S upload sr.data sub.proposerPubkey)

end Submitted

variable {sub}

/-- An upload that is accepted for the commitment carries the shard of its index. -/
theorem accepted_data {b commitment data root proof : List UInt8} {upload : ShardUpload}
    {sr : ShardResult} (hsr : sr ∈ sub.shards) (hpinned : sub.Pinned (.ok b))
    (hcollides : ¬ sub.Collides (.ok b)) (h : Accepts S b upload commitment data root proof)
    (hcommitment : commitment = sub.commitment) (hindex : upload.index = sr.index) :
    data = sr.data ∧
      (sub.proposerPubkey ≠ [] → SignedBy S upload sr.data sub.proposerPubkey) := by
  have hwell := split_wellIndexed S.toShardLibs sub.split_eq
  obtain ⟨hroot, hkey⟩ := hpinned b upload rfl h.parsed (hcommitment ▸ h.commitmentHex)
  have hverified := h.verified
  obtain rfl : root = sub.tree.rootBytes := Option.some.inj (h.rootHex.symm.trans hroot)
  rw [rootBytes_eq hwell sub.tree_eq, toHash_toList, hindex] at hverified
  have hdata : data = sr.data := by
    rcases verifyProof_sound hwell (split_nodup _ sub.split_eq) hsr (proofPath_length proof)
      hverified with hdata | hcollide
    · exact hdata
    · exact (hcollides ⟨sr, hsr, b, upload, data, proof, rfl, h.parsed, h.dataHex, h.proofHex,
        hcollide⟩).elim
  refine ⟨hdata, fun hne => ?_⟩
  have hnamed : upload.proposerPubkeyHex ≠ "" := by
    intro hnone
    have hdecoded := hkey hne
    rw [hnone] at hdecoded
    exact hne (Option.some.inj hdecoded).symm
  obtain ⟨pubKey, hsigned⟩ := h.signature hnamed
  obtain rfl : pubKey = sub.proposerPubkey := Option.some.inj (hsigned.2.1.symm.trans (hkey hne))
  rwa [hdata] at hsigned

/-- What a request leaves under a key of the commitment: what was there, or the shard,
carried by an upload that is signed if there is a key. -/
theorem serve_shard (env : Environment) (f : NodeFiles) {body : Except Err (List UInt8)}
    {sr : ShardResult} (hsr : sr ∈ sub.shards) (hpinned : sub.Pinned body)
    (hcollides : ¬ sub.Collides body) :
    (serve S env f body).shards.get (sub.commitment, sr.index) =
        f.shards.get (sub.commitment, sr.index) ∨
      (serve S env f body).shards.get (sub.commitment, sr.index) = some sr.data ∧
        ∃ b upload, body = .ok b ∧ S.unmarshalUpload (b.take bodyLimit) = some upload ∧
          decodeString upload.dataHex = some sr.data ∧
          (sub.proposerPubkey ≠ [] → SignedBy S upload sr.data sub.proposerPubkey) := by
  rcases serve_cases S env f body with hsame |
    ⟨b, upload, commitment, data, root, proof, rfl, haccepts, hserve⟩
  · rw [hsame]
    exact .inl rfl
  · by_cases hkey : (sub.commitment, sr.index) = (commitment, upload.index)
    · obtain ⟨hcommitment, hindex⟩ := Prod.mk.inj hkey
      obtain ⟨rfl, hsigned⟩ := accepted_data hsr hpinned hcollides haccepts hcommitment.symm
        hindex.symm
      refine .inr ⟨?_, b, upload, rfl, haccepts.parsed, haccepts.dataHex, hsigned⟩
      rw [hserve, hkey, Store.get_set_self]
    · left
      rw [hserve, Store.get_set_ne _ _ hkey]

theorem serve_authentic {f : NodeFiles} {body : Except Err (List UInt8)} (hf : sub.Authentic f)
    (hpinned : sub.Pinned body) (hcollides : ¬ sub.Collides body) :
    sub.Authentic (serve S env f body) := by
  intro sr hsr
  rcases serve_shard env f hsr hpinned hcollides with hsame | ⟨hstored, -⟩
  · rw [hsame]
    exact hf sr hsr
  · exact .inr hstored

theorem serve_authorised (f : NodeFiles) {body : Except Err (List UInt8)}
    (hpinned : sub.Pinned body) (hcollides : ¬ sub.Collides body) :
    sub.Authorised env f body := by
  intro sr hsr hchanged
  rcases serve_shard env f hsr hpinned hcollides with hsame | ⟨-, hcarried⟩
  · exact (hchanged hsame).elim
  · exact hcarried

/-- What a distributor sends names the root and the key of its submission. -/
theorem shardUpload_pinned (sub : Submitted S) {sr : ShardResult} {proof sig : List UInt8}
    (hbody : (marshalUpload (shardUpload sub.commitment sr sub.tree.rootBytes proof
      sub.proposerPubkey sig)).length ≤ bodyLimit)
    (hindex : 0 ≤ sr.index ∧ sr.index < erasureTotalShards)
    (hkey : sub.proposerPubkey ≠ [] → sub.proposerPubkey.length = dilithiumPublicKeySize) :
    sub.Pinned (.ok (marshalUpload (shardUpload sub.commitment sr sub.tree.rootBytes proof
      sub.proposerPubkey sig))) := by
  rintro b upload hb hparsed -
  obtain rfl := Except.ok.inj hb
  rw [List.take_of_length_le hbody,
    S.unmarshal_marshal _ (shardUpload_hexadecimal _ _ _ _ _ hindex)] at hparsed
  obtain rfl := Option.some.inj hparsed
  refine ⟨decodeString_encodeToString _, fun hne => ?_⟩
  rw [shardUpload, if_pos (hkey hne), decodeString_encodeToString]

end Requests

/-! A submission, an upload that forges its first shard, and an honest one. -/

section Forgery
open SubmitAgreement

noncomputable def submittedOnes (proposerPubkey : List UInt8) : Submitted plainServer where
  ciphertext := List.replicate 1024 1
  shards := plainShards (List.replicate 1024 1)
  tree := plainTree (List.replicate 1024 1)
  proposerPubkey := proposerPubkey
  split_eq := split_plain (by decide)
  tree_eq := buildMerkleTree_plain (by decide)

/-- The digest of 1024 ones. -/
def onesCommitment : List UInt8 := List.replicate 32 1

def firstShard : ShardResult := ⟨0, List.replicate 86 1⟩

theorem firstShard_mem (proposerPubkey : List UInt8) :
    firstShard ∈ (submittedOnes proposerPubkey).shards :=
  mem_numbered.mpr ⟨⟨0, by decide⟩, congrArg (ShardResult.mk 0) (by decide +kernel)⟩

/-- Another shard, with a root of its own and without a key. -/
def forgedUpload : ShardUpload :=
  shardUpload onesCommitment ⟨0, [2]⟩ (toHash [2]).toList (List.replicate 128 0) [] []

theorem forgedUpload_accepts : Accepts plainServer (marshalUpload forgedUpload) forgedUpload
    onesCommitment [2] (toHash [2]).toList (List.replicate 128 0) := by
  have hroot : verifyProof plainLibs (toHash (toHash [2]).toList) ((0 : ℕ) : ℤ) [2]
      ⟨((0 : ℕ) : ℤ), proofPath (List.replicate 128 0)⟩ = .ok () :=
    verifyProof_ok.mpr (by decide +kernel)
  refine shardUpload_accepts ?_ (by decide) (by decide) Vector.length_toList
    List.length_replicate (by decide) (fun h => by cases h) hroot
  rw [shardUpload_length, Vector.length_toList, onesCommitment, List.length_replicate,
    List.length_replicate]
  decide

def heldFiles : NodeFiles := ⟨(∅ : Store _ _).set (onesCommitment, 0) firstShard.data, ∅, []⟩

/-- An upload of the first shard that names the right root. -/
noncomputable def honestUpload : ShardUpload :=
  shardUpload (submittedOnes []).commitment firstShard (submittedOnes []).tree.rootBytes
    (List.replicate 128 1) [] []

theorem honestUpload_pinned : (submittedOnes []).Pinned (.ok (marshalUpload honestUpload)) := by
  refine shardUpload_pinned (submittedOnes []) ?_ (by decide) fun h => absurd rfl h
  have hcommitment : (submittedOnes []).commitment.length = 32 := Vector.length_toList
  have hroot : (submittedOnes []).tree.rootBytes.length = 32 := by
    rw [rootBytes_eq (split_wellIndexed _ (submittedOnes []).split_eq) (submittedOnes []).tree_eq,
      Vector.length_toList]
  rw [shardUpload_length, hcommitment, hroot]
  decide

theorem emptyFiles_authentic : (submittedOnes []).Authentic ⟨∅, ∅, []⟩ :=
  fun _ _ => .inl rfl

end Forgery

end Zytherion.ShardUploads
