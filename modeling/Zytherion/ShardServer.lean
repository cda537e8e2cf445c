import Zytherion.CallFrames
import Zytherion.MerkleProofs
import Zytherion.UploadText

/-!
# The shard server

Nodes exchange shards over HTTP. `handlePostShard` takes an upload: it reads at most
64 KB of the body, decodes it, checks the signature under the key the upload names
and the Merkle proof against the root the upload names, and writes the shard to the
disk. `handleGetShard` answers with the stored bytes, and `fetchShardFromPeer` reads
at most 64 KB of the answer.

Requests that the rate limiter or a missing header turns away reach neither.
-/
namespace Zytherion.ShardServer

open GoCall KeyedStore Application ByteStrings Shards ShardPlacement MerkleProofs
open UploadText

/-- With the check of signatures and the JSON decoder. It reads back what was encoded,
and nothing can be read from an encoded upload that is cut short. -/
structure ServerLibs extends ShardLibs where
  verify : (message signature pubKey : List UInt8) → Bool
  unmarshalUpload : List UInt8 → Option ShardUpload
  unmarshal_marshal : ∀ u, Hexadecimal u → unmarshalUpload (marshalUpload u) = some u
  unmarshal_truncated : ∀ u, Hexadecimal u → ∀ k < (marshalUpload u).length,
    unmarshalUpload ((marshalUpload u).take k) = none

structure HttpError where
  message : String
  status : ℕ

def badRequest (message : String) : HttpError := ⟨message, 400⟩
def forbidden (message : String) : HttpError := ⟨message, 403⟩

/-- How much of a body is read. -/
def bodyLimit : ℕ := 64 * 1024

def toHash (b : List UInt8) : Hash := Vector.ofFn fun i => b.getD i 0

theorem toHash_toList (h : Hash) : toHash h.toList = h := by
  apply Vector.ext
  intro i hi
  have hlen : i < h.toList.length := by rwa [Vector.length_toList]
  rw [toHash, Vector.getElem_ofFn, List.getD_eq_getElem _ _ hlen, Vector.getElem_toList]

/-- The hashes of a proof of the right length. -/
def proofPath (b : List UInt8) : List Hash :=
  (List.range (Nat.log2 erasureTotalShards)).map fun i => toHash ((b.drop (i * 32)).take 32)

theorem proofPath_length (b : List UInt8) : (proofPath b).length = 4 := by
  rw [proofPath, List.length_map, List.length_range]
  decide

theorem serializeProof_length (path : List Hash) :
    (serializeProof path).length = 32 * path.length := by
  induction path with
  | nil => rfl
  | cons h path ih =>
      rw [serializeProof, List.flatMap_cons, List.length_append, Vector.length_toList,
        List.length_cons, ← serializeProof, ih]
      ring

theorem serializeProof_drop (path : List Hash) (i : ℕ) :
    (serializeProof path).drop (i * 32) = serializeProof (path.drop i) := by
  induction path generalizing i with
  | nil => simp [serializeProof]
  | cons h path ih =>
      cases i with
      | zero => rw [Nat.zero_mul, List.drop_zero, List.drop_zero]
      | succ i =>
          have hlen : (i + 1) * 32 = h.toList.length + i * 32 := by
            rw [Vector.length_toList]
            ring
          rw [List.drop_succ_cons, ← ih, serializeProof, List.flatMap_cons, hlen,
            List.drop_length_add_append, ← serializeProof]

/-- A proof is read back from its bytes. -/
theorem proofPath_serialize {path : List Hash} (h : path.length = 4) :
    proofPath (serializeProof path) = path := by
  refine List.ext_getElem (by rw [proofPath_length, h]) fun i hi hi' => ?_
  have hdrop : path.drop i = path[i] :: path.drop (i + 1) := List.drop_eq_getElem_cons hi'
  simp only [proofPath, List.getElem_map, List.getElem_range]
  rw [serializeProof_drop, hdrop, serializeProof, List.flatMap_cons,
    List.take_left' (Vector.length_toList ..), toHash_toList]

/-- A field in hexadecimal that has to satisfy a condition once decoded. -/
def hexField (text : String) (wellFormed : List UInt8 → Bool) (message : String) :
    Except HttpError (List UInt8) :=
  match decodeString text with
  | none => .error (badRequest message)
  | some b => if wellFormed b then .ok b else .error (badRequest message)

abbrev Handling (α : Type) : Type := Call NodeFiles HttpError α

section Handlers
variable (S : ServerLibs) (env : Environment)

/-- If the upload names a key, its signature is checked under that key. -/
def checkSignature (upload : ShardUpload) (shardData : List UInt8) : Handling Unit :=
  if upload.proposerPubkeyHex = "" then pure ()
  else do
    let proposerPubkey ← ofExcept (hexField upload.proposerPubkeyHex
      (fun b => b.length == dilithiumPublicKeySize)
      ("invalid proposer_pubkey_hex: must be " ++ toString dilithiumPublicKeySize ++
        " bytes (Dilithium5 public key)"))
    require (upload.signatureHex ≠ "")
      (badRequest "signature_hex is required when proposer_pubkey_hex is present")
    let sigBytes ← ofExcept (hexField upload.signatureHex
      (fun b => b.length == dilithiumSignatureSize)
      ("invalid signature_hex: must be " ++ toString dilithiumSignatureSize ++
        " bytes (Dilithium5 signature)"))
    require (S.verify (S.sum256 shardData).toList sigBytes proposerPubkey)
      (forbidden "Dilithium5 signature verification failed")

/-- The shard store, with its error as an answer. -/
def storeUpload (commitment : List UInt8) (index : ℤ) (shardData : List UInt8) :
    Handling Unit := fun f =>
  match storeShard env commitment index shardData f with
  | .ok u t => .ok u t
  | .err e t => .err ⟨"failed to store shard: " ++ e.text, 500⟩ t
  | .panic r => .panic r

/-- `POST /shard`. The body may fail to arrive; a result stands for status 201. -/
def handlePostShard (body : Except Err (List UInt8)) : Handling Unit := do
  let body ← ofExcept (body.mapError fun _ => badRequest "failed to read body")
  let upload ← lookup (fun _ => S.unmarshalUpload (body.take bodyLimit))
    (badRequest "invalid JSON body")
  let commitment ← ofExcept (hexField upload.commitmentHex (fun b => b.length != 0)
    "invalid commitment_hex")
  let shardData ← ofExcept (hexField upload.dataHex (fun b => b.length != 0) "invalid data_hex")
  let merkleRootBytes ← ofExcept (hexField upload.merkleRootHex (fun b => b.length == 32)
    "invalid merkle_root_hex (must be 32 bytes)")
  let merkleProofBytes ← ofExcept (hexField upload.merkleProofHex (fun _ => true)
    "invalid merkle_proof_hex")
  require (decide (0 ≤ upload.index ∧ upload.index < erasureTotalShards))
    (badRequest ("index out of range [0," ++ toString erasureTotalShards ++ ")"))
  checkSignature S upload shardData
  require (merkleProofBytes.length == Nat.log2 erasureTotalShards * 32)
    (badRequest ("merkle proof must be " ++ toString (Nat.log2 erasureTotalShards * 32) ++
      " bytes (" ++ toString (Nat.log2 erasureTotalShards) ++ " hashes × 32)"))
  ofExcept ((verifyProof S.toShardLibs (toHash merkleRootBytes) upload.index shardData
      ⟨upload.index, proofPath merkleProofBytes⟩).mapError
    fun e => forbidden ("Merkle proof verification failed: " ++ e.text))
  storeUpload env commitment upload.index shardData

end Handlers

section Acceptance
variable {S : ServerLibs} {env : Environment} {f t : NodeFiles}

theorem hexField_ok {text message : String} {wellFormed : List UInt8 → Bool} {b : List UInt8} :
    hexField text wellFormed message = .ok b ↔
      decodeString text = some b ∧ wellFormed b = true := by
  unfold hexField
  cases decodeString text with
  | none => simp
  | some b' =>
      dsimp only
      split_ifs with h
      · simp only [Except.ok.injEq, Option.some.injEq]
        constructor
        · rintro rfl
          exact ⟨rfl, h⟩
        · exact fun hb => hb.1
      · simp only [Option.some.injEq, false_iff, not_and]
        rintro rfl
        exact h

/-- The signature the upload carries is one of the shard under a key. -/
def SignedBy (S : ServerLibs) (upload : ShardUpload) (shardData pubKey : List UInt8) : Prop :=
  pubKey.length = dilithiumPublicKeySize ∧ decodeString upload.proposerPubkeyHex = some pubKey ∧
    ∃ sig, decodeString upload.signatureHex = some sig ∧ sig.length = dilithiumSignatureSize ∧
      S.verify (S.sum256 shardData).toList sig pubKey = true

theorem checkSignature_ok {upload : ShardUpload} {shardData : List UInt8} {u : Unit} :
    checkSignature S upload shardData f = .ok u t ↔
      (upload.proposerPubkeyHex ≠ "" → ∃ pubKey, SignedBy S upload shardData pubKey) ∧ f = t := by
  unfold checkSignature
  split_ifs with hempty
  · simp [hempty]
  · simp only [bind_ok, ofExcept_ok, hexField_ok, require_ok, beq_iff_eq, decide_eq_true_eq,
      ne_eq, hempty, not_false_eq_true, forall_const]
    constructor
    · rintro ⟨pubKey, _, ⟨⟨hkey, hsize⟩, rfl⟩, _, _, ⟨-, rfl⟩, sig, _, ⟨⟨hsig, hlen⟩, rfl⟩, hverify,
        rfl⟩
      exact ⟨⟨pubKey, hsize, hkey, sig, hsig, hlen, hverify⟩, rfl⟩
    · rintro ⟨⟨pubKey, hsize, hkey, sig, hsig, hlen, hverify⟩, rfl⟩
      refine ⟨pubKey, f, ⟨⟨hkey, hsize⟩, rfl⟩, (), f, ⟨?_, rfl⟩, sig, f, ⟨⟨hsig, hlen⟩, rfl⟩,
        hverify, rfl⟩
      intro hnone
      rw [hnone] at hsig
      obtain rfl : [] = sig := Option.some.inj hsig
      cases hlen

theorem storeUpload_ok {commitment data : List UInt8} {index : ℤ} {u : Unit} :
    storeUpload env commitment index data f = .ok u t ↔
      storeShard env commitment index data f = .ok u t := by
  unfold storeUpload
  cases storeShard env commitment index data f <;> simp

/-- What `handlePostShard` asks of a body that decodes to the upload. -/
structure Accepts (S : ServerLibs) (body : List UInt8) (upload : ShardUpload)
    (commitment data root proof : List UInt8) : Prop where
  parsed : S.unmarshalUpload (body.take bodyLimit) = some upload
  commitmentHex : decodeString upload.commitmentHex = some commitment
  dataHex : decodeString upload.dataHex = some data
  rootHex : decodeString upload.merkleRootHex = some root
  proofHex : decodeString upload.merkleProofHex = some proof
  commitment_ne : commitment ≠ []
  data_ne : data ≠ []
  root_length : root.length = 32
  proof_length : proof.length = 128
  index : 0 ≤ upload.index ∧ upload.index < erasureTotalShards
  signature : upload.proposerPubkeyHex ≠ "" → ∃ pubKey, SignedBy S upload data pubKey
  verified : verifyProof S.toShardLibs (toHash root) upload.index data
    ⟨upload.index, proofPath proof⟩ = .ok ()

theorem handlePostShard_ok {body : List UInt8} :
    handlePostShard S env (.ok body) f = .ok () t ↔ ∃ upload commitment data root proof,
      Accepts S body upload commitment data root proof ∧
      env.writeShard commitment upload.index = .ok () ∧
      { f with shards := f.shards.set (commitment, upload.index) data } = t := by
  have hdepth : Nat.log2 erasureTotalShards * 32 = 128 := by decide
  simp only [handlePostShard, bind_ok, ofExcept_ok, mapError_ok, lookup_ok, hexField_ok,
    require_ok, checkSignature_ok, storeUpload_ok, storeShard_ok, Except.ok.injEq, hdepth,
    bne_iff_ne, beq_iff_eq, decide_eq_true_eq, ne_eq, List.length_eq_zero_iff, existsAndEq,
    true_and, and_true, and_assoc, exists_const]
  constructor
  · rintro ⟨upload, hparsed, commitment, hcommitment, hc, data, hdata, hd, root, hroot, hr, proof,
      hproof, hlow, hhigh, hsigned, hlen, _, hverified, -, -, -, -, hwrite, hfiles⟩
    exact ⟨upload, commitment, data, root, proof, ⟨hparsed, hcommitment, hdata, hroot, hproof, hc,
      hd, hr, hlen, ⟨hlow, hhigh⟩, hsigned, hverified⟩, hwrite, hfiles⟩
  · rintro ⟨upload, commitment, data, root, proof, h, hwrite, hfiles⟩
    exact ⟨upload, h.parsed, commitment, h.commitmentHex, h.commitment_ne, data, h.dataHex,
      h.data_ne, root, h.rootHex, h.root_length, proof, h.proofHex, h.index.1, h.index.2,
      h.signature, h.proof_length, (), h.verified, h.commitment_ne, h.index.1, h.index.2,
      h.data_ne, hwrite, hfiles⟩

/-- A request that is turned away leaves the files alone. -/
theorem handlePostShard_clean (body : Except Err (List UInt8)) :
    Clean (handlePostShard S env body) := by
  have hstore : ∀ c i d, Clean (storeUpload env c i d) := by
    intro c i d f e t h
    unfold storeUpload at h
    cases hs : storeShard env c i d f with
    | ok u t' => rw [hs] at h; cases h
    | panic r => rw [hs] at h; cases h
    | err e' t' =>
        rw [hs] at h
        cases h
        have hclean : Clean (storeShard env c i d) :=
          .bind (.require _ _) fun _ => .bind (.require _ _) fun _ => .bind (.require _ _) fun _ =>
            .bind (.ofExcept _) fun _ => fun _ _ _ h => ((modifyStore_err _).mp h).elim
        exact hclean f e' t hs
  refine .bind (.ofExcept _) fun body => .bind (.lookup _ _) fun upload => ?_
  refine .bind (.ofExcept _) fun commitment => .bind (.ofExcept _) fun data => ?_
  refine .bind (.ofExcept _) fun root => .bind (.ofExcept _) fun proof => ?_
  refine .bind (.require _ _) fun _ => .bind ?_ fun _ => .bind (.require _ _) fun _ => ?_
  · exact .ite (.pure _) (.bind (.ofExcept _) fun _ => .bind (.require _ _) fun _ =>
      .bind (.ofExcept _) fun _ => .require _ _)
  · exact .bind (.ofExcept _) fun _ => hstore _ _ _

/-- A request to the server: nothing is undone, whatever the answer. -/
def serve (S : ServerLibs) (env : Environment) (f : NodeFiles) (body : Except Err (List UInt8)) :
    NodeFiles :=
  match handlePostShard S env body f with
  | .ok _ t => t
  | .err _ t => t
  | .panic _ => f

/-- A request changes nothing, or stores the shard of an upload that was accepted. -/
theorem serve_cases (S : ServerLibs) (env : Environment) (f : NodeFiles)
    (body : Except Err (List UInt8)) :
    serve S env f body = f ∨ ∃ b upload commitment data root proof, body = .ok b ∧
      Accepts S b upload commitment data root proof ∧
      serve S env f body =
        { f with shards := f.shards.set (commitment, upload.index) data } := by
  unfold serve
  cases h : handlePostShard S env body f with
  | panic r => exact .inl rfl
  | err e t => exact .inl (handlePostShard_clean body f e t h)
  | ok u t =>
      cases body with
      | error e => cases h
      | ok b =>
          obtain ⟨upload, commitment, data, root, proof, haccepts, -, rfl⟩ :=
            handlePostShard_ok.mp h
          exact .inr ⟨b, upload, commitment, data, root, proof, rfl, haccepts, rfl⟩

theorem shardUpload_hexadecimal (commitment root proof key sig : List UInt8) {sr : ShardResult}
    (hindex : 0 ≤ sr.index ∧ sr.index < erasureTotalShards) :
    Hexadecimal (shardUpload commitment sr root proof key sig) where
  commitmentHex := encodeToString_digits _
  dataHex := encodeToString_digits _
  merkleRootHex := encodeToString_digits _
  merkleProofHex := encodeToString_digits _
  proposerPubkeyHex := by
    unfold shardUpload
    dsimp only
    split_ifs
    · exact encodeToString_digits _
    · exact fun c hc => by cases hc
  signatureHex := by
    unfold shardUpload
    dsimp only
    split_ifs
    · exact encodeToString_digits _
    · exact fun c hc => by cases hc
  index := hindex

/-- An upload as `sendShardToPeer` builds it is accepted if its body is short enough, its
signature verifies and its proof is right. -/
theorem shardUpload_accepts {commitment root proof key sig : List UInt8} {sr : ShardResult}
    (hbody : (marshalUpload (shardUpload commitment sr root proof key sig)).length ≤ bodyLimit)
    (hcommitment : commitment ≠ []) (hdata : sr.data ≠ []) (hroot : root.length = 32)
    (hproof : proof.length = 128) (hindex : 0 ≤ sr.index ∧ sr.index < erasureTotalShards)
    (hkey : key.length = dilithiumPublicKeySize → sig.length = dilithiumSignatureSize ∧
      S.verify (S.sum256 sr.data).toList sig key = true)
    (hverified : verifyProof S.toShardLibs (toHash root) sr.index sr.data
      ⟨sr.index, proofPath proof⟩ = .ok ()) :
    Accepts S (marshalUpload (shardUpload commitment sr root proof key sig))
      (shardUpload commitment sr root proof key sig) commitment sr.data root proof where
  parsed := by
    rw [List.take_of_length_le hbody]
    exact S.unmarshal_marshal _ (shardUpload_hexadecimal _ _ _ _ _ hindex)
  commitmentHex := decodeString_encodeToString _
  dataHex := decodeString_encodeToString _
  rootHex := decodeString_encodeToString _
  proofHex := decodeString_encodeToString _
  commitment_ne := hcommitment
  data_ne := hdata
  root_length := hroot
  proof_length := hproof
  index := hindex
  signature := by
    intro hnamed
    by_cases hsize : key.length = dilithiumPublicKeySize
    · obtain ⟨hlen, hverify⟩ := hkey hsize
      refine ⟨key, hsize, ?_, sig, ?_, hlen, hverify⟩
      · rw [shardUpload, if_pos hsize, decodeString_encodeToString]
      · rw [shardUpload, if_pos hlen, decodeString_encodeToString]
    · exact (hnamed (if_neg hsize)).elim
  verified := hverified

end Acceptance

/-! Reading a shard. -/

/-- An answer: its body may break off, and the header is empty if it is absent. -/
structure HttpResponse where
  status : ℕ
  body : Except Err (List UInt8)
  shardSignature : String

def httpError (message : String) (status : ℕ) : HttpResponse :=
  ⟨status, .ok (utf8 (message ++ "\n")), ""⟩

/-- `GET /shard` with the two parameters of the query. -/
def handleGetShard (commitmentHex indexStr : String) (f : NodeFiles) : HttpResponse :=
  match decodeString commitmentHex with
  | none => httpError "invalid commitment" 400
  | some commitment =>
      match atoi indexStr with
      | none => httpError "invalid index" 400
      | some index =>
          match f.shards.get (commitment, index) with
          | none => httpError "shard not found" 404
          | some data =>
              ⟨200, .ok data, ((f.signatures.get (commitment, index)).map encodeToString).getD ""⟩

/-- What is made of a peer's answer, or of its absence: the shard and its signature. -/
def fetchShardFromPeer (answer : Except Err HttpResponse) :
    Except Err (List UInt8 × List UInt8) :=
  match answer with
  | .error e => .error (.wrap "peer fetch: HTTP request failed" e)
  | .ok resp =>
      if resp.status = 404 then .error (.plain "peer fetch: shard not found on peer")
      else if resp.status ≠ 200 then
        .error (.plain ("peer fetch: unexpected status " ++ toString resp.status))
      else
        match resp.body with
        | .error e => .error (.wrap "peer fetch: failed to read response body" e)
        | .ok body => .ok (body.take bodyLimit, (decodeString resp.shardSignature).getD [])

/-! A server for which the digest of a string is its beginning. -/

/-- Twelve pieces of the data, filled up with zeros, and four pieces of zeros. -/
def evenShards (data : List UInt8) : Vector (List UInt8) erasureTotalShards :=
  let size := (data.length + 11) / 12
  Vector.ofFn fun i => ((data ++ List.replicate (16 * size) 0).drop (i.val * size)).take size

theorem evenShards_length (data : List UInt8) (i : Fin erasureTotalShards) :
    ((evenShards data).get i).length = (data.length + 11) / 12 := by
  have hend : ∀ size : ℕ, i.val * size + size ≤ 16 * size := fun size => by
    rw [← Nat.succ_mul]
    exact Nat.mul_le_mul_right _ i.isLt
  have hroom := hend ((data.length + 11) / 12)
  simp only [← getElem_eq_get, evenShards, Fin.getElem_fin, Vector.getElem_ofFn, List.length_take,
    List.length_drop, List.length_append, List.length_replicate]
  generalize (data.length + 11) / 12 = size at hroom ⊢
  generalize i.val * size = start at hroom ⊢
  omega

def plainLibs : ShardLibs where
  sum256 := toHash
  encSplit data := .ok (evenShards data)
  encEncode shards := .ok shards
  signTo _ _ := List.replicate dilithiumSignatureSize 0

def plainShards (data : List UInt8) : List ShardResult := numbered (evenShards data)

theorem split_plain {data : List UInt8} (h : data ≠ []) :
    split plainLibs data = .ok (plainShards data) :=
  if_neg (by rwa [List.isEmpty_iff])

def plainTree (data : List UInt8) : MerkleTree :=
  ⟨buildLevels plainLibs 4 (leafHashes plainLibs (plainShards data)), 4, erasureTotalShards⟩

theorem buildMerkleTree_plain {data : List UInt8} (h : data ≠ []) :
    buildMerkleTree plainLibs (plainShards data) = .ok (plainTree data) :=
  buildMerkleTree_eq plainLibs (split_wellIndexed plainLibs (split_plain h))

noncomputable def plainServer : ServerLibs where
  toShardLibs := plainLibs
  verify _ _ _ := true
  unmarshalUpload := readUpload
  unmarshal_marshal := readUpload_marshal
  unmarshal_truncated := readUpload_truncated

end Zytherion.ShardServer
