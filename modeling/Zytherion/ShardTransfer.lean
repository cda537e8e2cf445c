import Zytherion.PlacedShards
import Zytherion.ShardServer
import Zytherion.SubmitAgreement

/-!
# Sending a shard and reading it back

The body that `sendShardToPeer` builds is the shard in hexadecimal with its root, its
proof and possibly a key and a signature, and its length is known beforehand. A peer
reads 64 KB of it. A body that fits is accepted and the shard can be fetched from the
peer; from one that does not fit nothing can be read.

A shard is a twelfth of its ciphertext. The 32 KB that `ValidateBasic` lets through
always fit, with a key or without; the half megabyte that the handler itself would
accept never reaches it.
-/
namespace Zytherion.ShardTransfer

open GoCall KeyedStore Application ByteStrings Shards ShardPlacement MerkleProofs UploadText
open PlacedShards ShardServer TfheSubmit

/-- The length of a shard: twelve of them hold the ciphertext. -/
def shardLength (n : ℕ) : ℕ := (n + (erasureDataShards - 1)) / erasureDataShards

/-- The length of the body for a shard. -/
def bodyLength (index : ℤ) (size : ℕ) (signed : Bool) : ℕ :=
  471 + (toString index).toList.length + 2 * size + if signed then 14418 else 0

/-- What the encoder for the shards does about lengths. -/
def SplitsEvenly (L : ShardLibs) : Prop :=
  ∀ data shards, split L data = .ok shards →
    ∀ sr ∈ shards, sr.data.length = shardLength data.length

/-- The signatures of a key have their size and verify. -/
def Signs (S : ServerLibs) (kp : KeyPair) : Prop :=
  ∀ message, (S.signTo kp.privateKey message).length = dilithiumSignatureSize ∧
    S.verify message (S.signTo kp.privateKey message) kp.publicKey = true

section Bodies
variable {S : ServerLibs} {d : ShardDistributor} {sr : ShardResult} {tree : MerkleTree}
  {shards : List ShardResult} {data commitmentHash : List UInt8}

theorem proposerPubkey_length : d.proposerPubkey.length = dilithiumPublicKeySize ↔
    d.signingKey.isSome = true := by
  unfold ShardDistributor.proposerPubkey
  cases d.signingKey with
  | none => exact iff_of_false nofun nofun
  | some kp => exact ⟨fun _ => rfl, fun _ => kp.public_size⟩

theorem signatureOf_length (hkey : ∀ kp, d.signingKey = some kp → Signs S kp)
    (shardData : List UInt8) :
    (signatureOf S.toShardLibs d shardData).length = dilithiumSignatureSize ↔
      d.signingKey.isSome = true := by
  unfold signatureOf
  cases hd : d.signingKey with
  | none => exact iff_of_false nofun nofun
  | some kp => exact ⟨fun _ => rfl, fun _ => (hkey kp hd _).1⟩

theorem uploadOf_length (hkey : ∀ kp, d.signingKey = some kp → Signs S kp)
    (hwell : WellIndexed shards) (htree : buildMerkleTree S.toShardLibs shards = .ok tree)
    (hsr : sr ∈ shards) (hcommitment : commitmentHash.length = 32) :
    (marshalUpload (uploadOf S.toShardLibs d tree commitmentHash sr)).length =
      bodyLength sr.index sr.data.length d.signingKey.isSome := by
  obtain ⟨hroot, hpath⟩ := proof_sizes hwell htree hsr
  rw [uploadOf, shardUpload_length, hcommitment, hroot, serializeProof_length, hpath, bodyLength]
  simp only [proposerPubkey_length, signatureOf_length hkey]
  split_ifs <;> omega

/-- A body that fits is accepted. -/
theorem uploadOf_accepts (hkey : ∀ kp, d.signingKey = some kp → Signs S kp)
    (hsplit : split S.toShardLibs data = .ok shards)
    (htree : buildMerkleTree S.toShardLibs shards = .ok tree) (hsr : sr ∈ shards)
    (hdata : sr.data ≠ []) (hcommitment : commitmentHash.length = 32)
    (hbody : (marshalUpload (uploadOf S.toShardLibs d tree commitmentHash sr)).length ≤
      bodyLimit) :
    Accepts S (marshalUpload (uploadOf S.toShardLibs d tree commitmentHash sr))
      (uploadOf S.toShardLibs d tree commitmentHash sr) commitmentHash sr.data tree.rootBytes
      (serializeProof (tree.path tree.depth sr.index.toNat)) := by
  have hwell := split_wellIndexed S.toShardLibs hsplit
  obtain ⟨hroot, hpath⟩ := proof_sizes hwell htree hsr
  have hne : commitmentHash ≠ [] := by
    rintro rfl
    cases hcommitment
  refine shardUpload_accepts hbody hne hdata hroot ?_ (hwell.2 sr hsr) ?_ ?_
  · rw [serializeProof_length, hpath]
  · intro hsize
    obtain ⟨kp, hd⟩ := Option.isSome_iff_exists.mp (proposerPubkey_length.mp hsize)
    have hsigned := hkey kp hd (S.sum256 sr.data).toList
    simpa only [signatureOf, ShardDistributor.proposerPubkey, hd, Option.elim_some] using hsigned
  · rw [proofPath_serialize hpath, rootBytes_eq hwell htree, toHash_toList]
    exact verifyProof_shard hwell (split_nodup _ hsplit) htree hsr

/-- From a body that does not fit nothing is read. -/
theorem handlePostShard_oversized {env : Environment} {f t : NodeFiles} {upload : ShardUpload}
    (hupload : Hexadecimal upload) (hbody : bodyLimit < (marshalUpload upload).length) :
    handlePostShard S env (.ok (marshalUpload upload)) f ≠ .ok () t := by
  intro h
  obtain ⟨_, _, _, _, _, haccepts, -⟩ := handlePostShard_ok.mp h
  have hparsed := haccepts.parsed
  rw [S.unmarshal_truncated upload hupload _ hbody] at hparsed
  cases hparsed

theorem oversized_rejected {env : Environment} {f t : NodeFiles}
    (hcode : SplitsEvenly S.toShardLibs) (hkey : ∀ kp, d.signingKey = some kp → Signs S kp)
    (hsplit : split S.toShardLibs data = .ok shards)
    (htree : buildMerkleTree S.toShardLibs shards = .ok tree) (hsr : sr ∈ shards)
    (hlong : bodyLimit < bodyLength sr.index (shardLength data.length) d.signingKey.isSome) :
    handlePostShard S env (.ok (marshalUpload
      (uploadOf S.toShardLibs d tree (S.sum256 data).toList sr))) f ≠ .ok () t := by
  have hwell := split_wellIndexed S.toShardLibs hsplit
  have hhex : Hexadecimal (uploadOf S.toShardLibs d tree (S.sum256 data).toList sr) :=
    shardUpload_hexadecimal _ _ _ _ _ (hwell.2 sr hsr)
  refine handlePostShard_oversized hhex ?_
  rwa [uploadOf_length hkey hwell htree hsr Vector.length_toList,
    hcode data shards hsplit sr hsr]

theorem isInt_index {index : ℤ} (h : 0 ≤ index ∧ index < erasureTotalShards) : IsInt index :=
  ⟨by omega, h.2.trans (by decide)⟩

/-- A shard that is stored and not too long is fetched whole. -/
theorem fetch_stored {t : NodeFiles} (hindex : 0 ≤ sr.index ∧ sr.index < erasureTotalShards)
    (hstored : t.shards.get (commitmentHash, sr.index) = some sr.data)
    (hlen : sr.data.length ≤ bodyLimit) :
    ∃ sig, fetchShardFromPeer (.ok (handleGetShard (encodeToString commitmentHash)
      (toString sr.index) t)) = .ok (sr.data, sig) := by
  have hget : handleGetShard (encodeToString commitmentHash) (toString sr.index) t =
      ⟨200, .ok sr.data,
        ((t.signatures.get (commitmentHash, sr.index)).map encodeToString).getD ""⟩ := by
    simp only [handleGetShard, decodeString_encodeToString, atoi_toString (isInt_index hindex),
      hstored]
  rw [hget]
  simp only [fetchShardFromPeer, List.take_of_length_le hlen]
  exact ⟨_, rfl⟩

end Bodies

/-- A shard of a ciphertext that `TFHESubmit` accepts reaches a peer and can be fetched
from it exactly if its body fits into what the peer reads. -/
theorem sent_shard_stored_iff (S : ServerLibs) (hcode : SplitsEvenly S.toShardLibs)
    (d : ShardDistributor) (hkey : ∀ kp, d.signingKey = some kp → Signs S kp)
    (peer : Environment) (hdisk : ∀ c i, peer.writeShard c i = .ok ()) (f : NodeFiles)
    (data : List UInt8)
    (hsize : minCiphertextSize ≤ data.length ∧ data.length ≤ maxCiphertextSize)
    (shards : List ShardResult) (hsplit : split S.toShardLibs data = .ok shards)
    (tree : MerkleTree) (htree : buildMerkleTree S.toShardLibs shards = .ok tree)
    (sr : ShardResult) (hsr : sr ∈ shards) :
    (∃ t, handlePostShard S peer (.ok (marshalUpload
          (uploadOf S.toShardLibs d tree (S.sum256 data).toList sr))) f = .ok () t ∧
        ∃ sig, fetchShardFromPeer (.ok (handleGetShard
          (encodeToString (S.sum256 data).toList) (toString sr.index) t)) = .ok (sr.data, sig)) ↔
      bodyLength sr.index (shardLength data.length) d.signingKey.isSome ≤ bodyLimit := by
  have hwell := split_wellIndexed S.toShardLibs hsplit
  have hlen := hcode data shards hsplit sr hsr
  constructor
  · rintro ⟨t, hposted, -⟩
    by_contra hlong
    exact oversized_rejected hcode hkey hsplit htree hsr (not_le.mp hlong) hposted
  · intro hfits
    rw [← hlen, ← uploadOf_length hkey hwell htree hsr Vector.length_toList] at hfits
    have hshort : sr.data.length ≤ bodyLimit := by
      rw [hlen]
      exact (Nat.div_le_div_right (Nat.add_le_add_right hsize.2 _)).trans (by decide)
    have hdata : sr.data ≠ [] := by
      rw [← List.length_pos_iff, hlen]
      exact lt_of_lt_of_le (by decide) (Nat.div_le_div_right (Nat.add_le_add_right hsize.1 _))
    have haccepts := uploadOf_accepts hkey hsplit htree hsr hdata Vector.length_toList hfits
    refine ⟨_, handlePostShard_ok.mpr ⟨_, _, _, _, _, haccepts, hdisk _ _, rfl⟩, ?_⟩
    exact fetch_stored (hwell.2 sr hsr) (Store.get_set_self ..) hshort

/-- A body with a shard of at most 32 KB fits whatever its index, and whether it is
signed or not. -/
theorem bodyLength_le {index : ℤ} (hindex : 0 ≤ index ∧ index < erasureTotalShards) {size : ℕ}
    (hsize : size ≤ 32 * 1024) (signed : Bool) :
    bodyLength index (shardLength size) signed ≤ bodyLimit := by
  have hdigits : ∀ i : Fin erasureTotalShards, (toString (i.val : ℤ)).toList.length ≤ 2 := by
    decide
  obtain ⟨i, rfl⟩ := Int.eq_ofNat_of_zero_le hindex.1
  have htwo : (toString (i : ℤ)).toList.length ≤ 2 := hdigits ⟨i, by omega⟩
  have hshard : shardLength size ≤ 2731 :=
    Nat.div_le_div_right (Nat.add_le_add_right hsize (erasureDataShards - 1))
  have hlimit : bodyLimit = 65536 := by decide
  rw [bodyLength, hlimit]
  split_ifs <;> omega

/-- Whatever ciphertext comes past `ValidateBasic` and the sizes that `TFHESubmit` checks,
each of its shards reaches a peer and is fetched from it whole. -/
theorem sent_shard_stored (A : App) (S : ServerLibs) (hcode : SplitsEvenly S.toShardLibs)
    (d : ShardDistributor) (hkey : ∀ kp, d.signingKey = some kp → Signs S kp)
    (peer : Environment) (hdisk : ∀ c i, peer.writeShard c i = .ok ()) (f : NodeFiles)
    (msg : MsgTFHESubmit) (hvalid : msg.validateBasic A = .ok ())
    (hsize : minCiphertextSize ≤ msg.ciphertext.length ∧
      msg.ciphertext.length ≤ maxCiphertextSize)
    (shards : List ShardResult) (hsplit : split S.toShardLibs msg.ciphertext = .ok shards)
    (tree : MerkleTree) (htree : buildMerkleTree S.toShardLibs shards = .ok tree)
    (sr : ShardResult) (hsr : sr ∈ shards) :
    ∃ t, handlePostShard S peer (.ok (marshalUpload
        (uploadOf S.toShardLibs d tree (S.sum256 msg.ciphertext).toList sr))) f = .ok () t ∧
      ∃ sig, fetchShardFromPeer (.ok (handleGetShard
        (encodeToString (S.sum256 msg.ciphertext).toList) (toString sr.index) t)) =
          .ok (sr.data, sig) := by
  have hwell := split_wellIndexed S.toShardLibs hsplit
  apply (sent_shard_stored_iff S hcode d hkey peer hdisk f msg.ciphertext hsize shards hsplit
    tree htree sr hsr).mpr
  exact bodyLength_le (hwell.2 sr hsr) (MsgTFHESubmit.validateBasic_ok.mp hvalid).2.2 _

section Sizes
open SubmitAgreement Devnet

theorem plainServer_splitsEvenly : SplitsEvenly plainServer.toShardLibs := by
  intro data shards hsplit sr hsr
  have hdata : data ≠ [] := by
    rintro rfl
    cases hsplit
  obtain rfl := Except.ok.inj ((split_plain hdata).symm.trans hsplit)
  obtain ⟨i, rfl⟩ := mem_numbered.mp hsr
  rw [getElem_eq_get]
  exact evenShards_length data i

/-- A node that signs nothing. -/
def unsigned : ShardDistributor := ⟨"alpha", none⟩

theorem erasureTotalShards_pos : 0 < erasureTotalShards := by decide

def firstOf (data : List UInt8) : ShardResult :=
  ⟨0, (evenShards data).get ⟨0, erasureTotalShards_pos⟩⟩

theorem firstOf_mem (data : List UInt8) : firstOf data ∈ plainShards data :=
  mem_numbered.mpr ⟨⟨0, erasureTotalShards_pos⟩, rfl⟩

theorem unsigned_signs (S : ServerLibs) :
    ∀ kp, unsigned.signingKey = some kp → Signs S kp :=
  fun _ h => by cases h

/-- The first shard of a kilobyte of zeros arrives. -/
theorem shortest_ciphertext_sent :
    ∃ t, handlePostShard plainServer calmEnv (.ok (marshalUpload (uploadOf plainLibs unsigned
        (plainTree sampleMsg.ciphertext) (plainLibs.sum256 sampleMsg.ciphertext).toList
        (firstOf sampleMsg.ciphertext)))) ⟨∅, ∅, []⟩ = .ok () t ∧
      ∃ sig, fetchShardFromPeer (.ok (handleGetShard
        (encodeToString (plainLibs.sum256 sampleMsg.ciphertext).toList) "0" t)) =
          .ok ((firstOf sampleMsg.ciphertext).data, sig) := by
  have hne : sampleMsg.ciphertext ≠ [] :=
    List.ne_nil_of_length_eq_add_one sampleMsg_length
  have hvalid : sampleMsg.validateBasic devnet = .ok () := by
    refine MsgTFHESubmit.validateBasic_ok.mpr ⟨⟨_, sampleMsg_admitted.address⟩, hne, ?_⟩
    rw [sampleMsg_length]
    decide
  exact sent_shard_stored devnet plainServer plainServer_splitsEvenly unsigned
    (unsigned_signs plainServer) calmEnv calmEnv_writes ⟨∅, ∅, []⟩ sampleMsg hvalid
    ⟨sampleMsg_admitted.large, sampleMsg_admitted.small⟩ (plainShards sampleMsg.ciphertext)
    (split_plain hne) (plainTree sampleMsg.ciphertext) (buildMerkleTree_plain hne)
    (firstOf sampleMsg.ciphertext) (firstOf_mem _)

end Sizes

end Zytherion.ShardTransfer
