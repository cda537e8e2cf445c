import Zytherion.ShardServer
import Mathlib.Data.Int.Interval

/-!
# The Merkle step of an upload

`handlePostShard` decodes an upload and checks its signature, then it checks the Merkle
proof against the root the upload names, and then it stores the shard. The second step
lets through the shard that was committed to under that root, with the proof made for it.
Whatever else it lets through names two strings with one digest.
-/
namespace Zytherion.MerkleStep

open GoCall Application ByteStrings Shards ShardPlacement MerkleProofs UploadText ShardServer

/-- The fields of an upload once they are decoded. -/
structure DecodedUpload where
  commitment : List UInt8
  index : ℤ
  data : List UInt8
  root : List UInt8
  proof : List UInt8

section Steps
variable (S : ServerLibs)

/-- What comes before the Merkle step: decoding and the signature. -/
def decodeUpload (body : Except Err (List UInt8)) : Handling DecodedUpload := do
  let body ← ofExcept (body.mapError fun _ => badRequest "failed to read body")
  let upload ← lookup (fun _ => S.unmarshalUpload (body.take bodyLimit))
    (badRequest "invalid JSON body")
  let commitment ← ofExcept (hexField upload.commitmentHex (fun b => b.length != 0)
    "invalid commitment_hex")
  let shardData ← ofExcept (hexField upload.dataHex (fun b => b.length != 0) "invalid data_hex")
  let merkleRootBytes ← ofExcept (hexField upload.merkleRootHex (fun b => b.length == 32)
    "invalid merkle_root_hex (must be 32 bytes)")
  let merkleProofBytes ← ofExcept (hexField upload.merkleProofHex (fun _ => true)
    "invalid merkle_proof_hex")
  require (decide (0 ≤ upload.index ∧ upload.index < erasureTotalShards))
    (badRequest ("index out of range [0," ++ toString erasureTotalShards ++ ")"))
  checkSignature S upload shardData
  return ⟨commitment, upload.index, shardData, merkleRootBytes, merkleProofBytes⟩

def merkleStep (u : DecodedUpload) : Handling Unit := do
  require (u.proof.length == Nat.log2 erasureTotalShards * 32)
    (badRequest ("merkle proof must be " ++ toString (Nat.log2 erasureTotalShards * 32) ++
      " bytes (" ++ toString (Nat.log2 erasureTotalShards) ++ " hashes × 32)"))
  ofExcept ((verifyProof S.toShardLibs (toHash u.root) u.index u.data
      ⟨u.index, proofPath u.proof⟩).mapError
    fun e => forbidden ("Merkle proof verification failed: " ++ e.text))

theorem handlePostShard_eq (env : Environment) (body : Except Err (List UInt8)) :
    handlePostShard S env body = (do
      let u ← decodeUpload S body
      merkleStep S u
      storeUpload env u.commitment u.index u.data) := by
  simp only [handlePostShard, decodeUpload, merkleStep, bind_assoc_call]
  rfl

/-- The upload passes the step, on any node. -/
def Passes (u : DecodedUpload) : Prop := ∀ f, merkleStep S u f = .ok () f

end Steps

section Proofs
variable {S : ServerLibs} {u : DecodedUpload} {shards : List ShardResult} {tree : MerkleTree}

theorem passes_iff : Passes S u ↔
    u.proof.length = 128 ∧ verifyProof S.toShardLibs (toHash u.root) u.index u.data
      ⟨u.index, proofPath u.proof⟩ = .ok () := by
  have hdepth : Nat.log2 erasureTotalShards * 32 = 128 := by decide
  have hstep : ∀ f, merkleStep S u f = .ok () f ↔ u.proof.length = 128 ∧
      verifyProof S.toShardLibs (toHash u.root) u.index u.data
        ⟨u.index, proofPath u.proof⟩ = .ok () := by
    intro f
    simp only [merkleStep, bind_ok, require_ok, ofExcept_ok, mapError_ok, beq_iff_eq, hdepth]
    constructor
    · rintro ⟨_, _, ⟨hlen, rfl⟩, hverified, -⟩
      exact ⟨hlen, hverified⟩
    · rintro ⟨hlen, hverified⟩
      exact ⟨(), f, ⟨hlen, rfl⟩, hverified, rfl⟩
  exact ⟨fun h => (hstep ⟨∅, ∅, []⟩).mp (h _), fun h f => (hstep f).mpr h⟩

theorem toList_toHash {b : List UInt8} (h : b.length = 32) : (toHash b).toList = b := by
  refine List.ext_getElem ?_ fun i hi hi' => ?_
  · rw [Vector.length_toList, h]
  · rw [Vector.getElem_toList]
    unfold toHash
    rw [Vector.getElem_ofFn]
    exact List.getD_eq_getElem _ _ hi'

/-- The bytes of a proof are those of its hashes. -/
theorem serializeProof_proofPath {b : List UInt8} (h : b.length = 128) :
    serializeProof (proofPath b) = b := by
  have hchunks : (proofPath b).map Vector.toList =
      (List.range (Nat.log2 erasureTotalShards)).map fun i => (b.drop (i * 32)).take 32 := by
    rw [proofPath, List.map_map]
    refine List.map_congr_left fun i hi => toList_toHash ?_
    have hlt : i < 4 := List.mem_range.mp hi
    rw [List.length_take, List.length_drop]
    omega
  rw [serializeProof, List.flatMap_def, hchunks, flatten_chunks, List.take_of_length_le]
  rw [h]
  decide

theorem wellIndexed_of_tree {L : ShardLibs} (h : buildMerkleTree L shards = .ok tree) :
    WellIndexed shards := by
  unfold buildMerkleTree at h
  split_ifs at h with hlen
  split at h
  · cases h
  · rename_i hnone
    refine ⟨not_not.mp hlen, fun sr hsr => ?_⟩
    have hin := List.find?_eq_none.mp hnone sr hsr
    rw [decide_eq_true_eq] at hin
    omega

/-- Every index in range is that of one of the shards. -/
theorem exists_shard (h : WellIndexed shards) (hnodup : (shards.map ShardResult.index).Nodup)
    {i : ℤ} (hi : 0 ≤ i ∧ i < erasureTotalShards) : ∃ sr ∈ shards, sr.index = i := by
  have hsub : (shards.map ShardResult.index).toFinset ⊆ Finset.Ico 0 (erasureTotalShards : ℤ) := by
    intro k hk
    obtain ⟨sr, hsr, rfl⟩ := List.mem_map.mp (List.mem_toFinset.mp hk)
    exact Finset.mem_Ico.mpr (h.2 sr hsr)
  have hcard : (Finset.Ico 0 (erasureTotalShards : ℤ)).card ≤
      (shards.map ShardResult.index).toFinset.card := by
    rw [List.toFinset_card_of_nodup hnodup, List.length_map, h.1, Int.card_Ico]
    decide
  have hmem : i ∈ (shards.map ShardResult.index).toFinset := by
    rw [Finset.eq_of_subset_of_card_le hsub hcard]
    exact Finset.mem_Ico.mpr hi
  exact List.mem_map.mp (List.mem_toFinset.mp hmem)

theorem proofForShard_eq {L : ShardLibs} (h : buildMerkleTree L shards = .ok tree) {i : ℤ}
    (hi : 0 ≤ i ∧ i < erasureTotalShards) :
    tree.proofForShard i = .ok (tree.path tree.depth i.toNat) := by
  obtain rfl := Except.ok.inj ((buildMerkleTree_eq L (wellIndexed_of_tree h)).symm.trans h)
  rw [MerkleTree.proofForShard, if_neg]
  simp only
  omega

theorem merkle_step_exact (hnodup : (shards.map ShardResult.index).Nodup)
    (htree : buildMerkleTree S.toShardLibs shards = .ok tree) (u : DecodedUpload)
    (hroot : u.root = tree.rootBytes) (hindex : 0 ≤ u.index ∧ u.index < erasureTotalShards) :
    ∃ sr ∈ shards, sr.index = u.index ∧ ∃ path, tree.proofForShard u.index = .ok path ∧
      (u.data = sr.data ∧ u.proof = serializeProof path → Passes S u) ∧
      (Passes S u → u.data = sr.data ∧ u.proof = serializeProof path ∨
        Collide S.toShardLibs
          (checkInputs S.toShardLibs u.index.toNat u.data (proofPath u.proof))
          (treeInputs S.toShardLibs shards sr)) := by
  have hwell := wellIndexed_of_tree htree
  obtain ⟨sr, hsr, hsri⟩ := exists_shard hwell hnodup hindex
  have hhash : toHash u.root = rootOf S.toShardLibs shards := by
    rw [hroot, rootBytes_eq hwell htree, toHash_toList]
  obtain ⟨-, hpath⟩ := proof_sizes hwell htree hsr
  refine ⟨sr, hsr, hsri, _, proofForShard_eq htree hindex, ?_, ?_⟩
  · rintro ⟨hdata, hproof⟩
    rw [passes_iff, hproof, hhash, hdata, ← hsri, proofPath_serialize hpath,
      serializeProof_length, hpath]
    exact ⟨rfl, verifyProof_shard hwell hnodup htree hsr⟩
  · intro hpasses
    obtain ⟨hlen, hverified⟩ := passes_iff.mp hpasses
    rw [hhash, ← hsri] at hverified
    rw [← hsri]
    refine (verifyProof_binds hwell hnodup htree hsr (proofPath_length _) hverified).imp_left ?_
    rintro ⟨hdata, hproof⟩
    exact ⟨hdata, by rw [← hproof, serializeProof_proofPath hlen]⟩

/-- The first shard of one byte, with the proof made for it. -/
theorem merkle_step_exact_byte : ∃ path, (plainTree [7]).proofForShard 0 = .ok path ∧
    Passes plainServer ⟨[1], 0, [7], (plainTree [7]).rootBytes, serializeProof path⟩ := by
  have hne : [(7 : UInt8)] ≠ [] := by decide
  have htree := buildMerkleTree_plain hne
  have hpath := proofForShard_eq htree (i := 0) (by decide)
  obtain ⟨sr, hsr, hindex, path, hpath', hpasses, -⟩ := merkle_step_exact (S := plainServer)
    (split_nodup plainLibs (split_plain hne)) htree ⟨[1], 0, [7], (plainTree [7]).rootBytes,
      serializeProof ((plainTree [7]).path (plainTree [7]).depth 0)⟩ rfl (by decide)
  obtain rfl := Except.ok.inj (hpath.symm.trans hpath')
  refine ⟨_, hpath, hpasses ⟨?_, rfl⟩⟩
  obtain ⟨i, rfl⟩ := mem_numbered.mp hsr
  obtain rfl : i = ⟨0, by decide⟩ := Fin.ext (Int.natCast_inj.mp hindex)
  rfl

end Proofs

end Zytherion.MerkleStep
