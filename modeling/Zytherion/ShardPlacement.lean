import Zytherion.Shards
import Mathlib.Data.List.Sort
import Mathlib.Data.String.Basic

/-!
# Where the shards go

Each shard is assigned to up to four nodes of a cluster: one that the hash of the
commitment and the shard's index picks, and those that follow it in the order of
names. A node keeps what is assigned to it on its disk and sends the rest to its
peers.

The cluster is the node itself, the names it is handed and the names in its
environment. What the disk and the peers answer is part of the environment, and
the peers' answers are ignored.
-/
namespace Zytherion.ShardPlacement

open GoCall KeyedStore Application ByteStrings Shards

def replicationFactor : ℕ := 4

/-! Names of nodes. -/

def trimSpace (s : String) : String :=
  String.ofList (((s.toList.dropWhile isSpace).reverse.dropWhile isSpace).reverse)

/-- The trimmed names that are not blank. -/
def trimmedNames (names : List String) : List String := (names.map trimSpace).filter (· ≠ "")

def splitCommas (s : String) : List String := (s.toList.splitOn ',').map String.ofList

def clusterNodes (nodeID : String) (peerAddrs : List String) (envPeers : String) : List String :=
  ((nodeID :: (trimmedNames peerAddrs ++
    if envPeers ≠ "" then trimmedNames (splitCommas envPeers) else [])).dedup).insertionSort (· ≤ ·)

section Placement
variable (L : ShardLibs)

def primaryIdx (commitmentHash : List UInt8) (index : ℤ) (size : ℕ) : ℕ :=
  (L.sum256 (utf8 (encodeToString commitmentHash ++ "_" ++ toString index)))[0].toNat % size

def assignedNodes (cluster : List String) (commitmentHash : List UInt8) (index : ℤ) : List String :=
  (List.range (min replicationFactor cluster.length)).map fun r =>
    cluster.getD ((primaryIdx L commitmentHash index cluster.length + r) % cluster.length) ""

end Placement

/-! A node and what it finds around it. -/

structure ShardUpload where
  commitmentHex : String
  index : ℤ
  dataHex : String
  merkleRootHex : String
  merkleProofHex : String
  proposerPubkeyHex : String
  signatureHex : String

/-- Variables of the process, and the outcomes of writing a shard or a signature
and of a request to a peer. -/
structure Environment where
  tfheNodeID : String
  tfhePeers : String
  writeShard : (commitmentHash : List UInt8) → (index : ℤ) → Except Err Unit
  writeSignature : (commitmentHash : List UInt8) → (index : ℤ) → Except Err Unit
  respond : (peerAddr : String) → ShardUpload → Except Err Unit

/-- What `WithSigningKey` accepts. -/
structure KeyPair where
  privateKey : List UInt8
  publicKey : List UInt8
  private_size : privateKey.length = dilithiumPrivateKeySize
  public_size : publicKey.length = dilithiumPublicKeySize

structure ShardDistributor where
  nodeID : String
  signingKey : Option KeyPair

/-- The files of a node and what it has sent. -/
structure NodeFiles where
  shards : Store (List UInt8 × ℤ) (List UInt8)
  signatures : Store (List UInt8 × ℤ) (List UInt8)
  outbox : List (String × ShardUpload)

structure TFHEShardMeta where
  commitmentHash : List UInt8
  originalLen : ℤ
  shardNodeMap : Store ℤ (List String)
  merkleRoot : List UInt8
  proposerPubkey : List UInt8

abbrev DiskExec (α : Type) : Type := Call NodeFiles Err α

section Distribution
variable (L : ShardLibs) (env : Environment) (d : ShardDistributor)

def storeShard (commitmentHash : List UInt8) (shardIndex : ℤ) (data : List UInt8) :
    DiskExec Unit := do
  require (!commitmentHash.isEmpty) (.plain "shard_store: commitmentHash must not be empty")
  require (decide (0 ≤ shardIndex ∧ shardIndex < erasureTotalShards))
    (.plain ("shard_store: invalid shard index " ++ toString shardIndex ++ " (must be 0.." ++
      toString (erasureTotalShards - 1) ++ ")"))
  require (!data.isEmpty) (.plain "shard_store: shard data must not be empty")
  ofExcept (env.writeShard commitmentHash shardIndex)
  modifyStore fun f => { f with shards := f.shards.set (commitmentHash, shardIndex) data }

/-- Without a signature there is nothing to write. -/
def storeShardSignature (commitmentHash : List UInt8) (shardIndex : ℤ) (sig : List UInt8) :
    DiskExec Unit :=
  if sig.isEmpty then pure ()
  else do
    ofExcept (env.writeSignature commitmentHash shardIndex)
    modifyStore fun f => { f with signatures := f.signatures.set (commitmentHash, shardIndex) sig }

def pqcSign (message privKeyBytes : List UInt8) : Except Err (List UInt8) :=
  if privKeyBytes.length ≠ dilithiumPrivateKeySize then
    .error (.plain ("dilithium5 sign: invalid private key length " ++
      toString privKeyBytes.length ++ " (want " ++ toString dilithiumPrivateKeySize ++ ")"))
  else .ok (L.signTo privKeyBytes message)

def signShardData (shardData : List UInt8) : Except Err (List UInt8) :=
  match d.signingKey with
  | none => .ok []
  | some kp =>
      match pqcSign L (L.sum256 shardData).toList kp.privateKey with
      | .ok sig => .ok sig
      | .error e => .error (.wrap "shard_distributor: Dilithium5 sign failed" e)

/-- The empty string stands for nil. -/
def ShardDistributor.proposerPubkey : List UInt8 := d.signingKey.elim [] KeyPair.publicKey

/-- The key and the signature go along if they have their sizes. -/
def shardUpload (commitmentHash : List UInt8) (sr : ShardResult)
    (merkleRoot merkleProof proposerPubkey signature : List UInt8) : ShardUpload where
  commitmentHex := encodeToString commitmentHash
  index := sr.index
  dataHex := encodeToString sr.data
  merkleRootHex := encodeToString merkleRoot
  merkleProofHex := encodeToString merkleProof
  proposerPubkeyHex :=
    if proposerPubkey.length = dilithiumPublicKeySize then encodeToString proposerPubkey else ""
  signatureHex :=
    if signature.length = dilithiumSignatureSize then encodeToString signature else ""

def sendShardToPeer (peerAddr : String) (upload : ShardUpload) : DiskExec Unit := do
  modifyStore fun f => { f with outbox := f.outbox ++ [(peerAddr, upload)] }
  ofExcept (env.respond peerAddr upload)

def ShardDistributor.resolvedNodeID : String :=
  if d.nodeID ≠ "" then d.nodeID
  else if env.tfheNodeID ≠ "" then env.tfheNodeID
  else "local_node"

/-- The shard and its signature go to the disk if the node is among those assigned. -/
def keepShard (assigned : List String) (commitmentHash : List UInt8) (sr : ShardResult)
    (sig : List UInt8) : DiskExec Unit :=
  if d.resolvedNodeID env ∈ assigned then do
    mapErr (.wrap ("distributor: failed to store shard " ++ toString sr.index ++ " locally"))
      (storeShard env commitmentHash sr.index sr.data)
    mapErr (.wrap ("distributor: failed to store signature for shard " ++ toString sr.index))
      (storeShardSignature env commitmentHash sr.index sig)
  else pure ()

def sendShard (assigned : List String) (upload : ShardUpload) : DiskExec Unit :=
  (assigned.filter (· ≠ d.resolvedNodeID env)).forM fun peerAddr =>
    ignoreErr (sendShardToPeer env peerAddr upload)

/-- One round of the loop of `DistributeShards`. -/
def placeShard (tree : MerkleTree) (cluster : List String) (commitmentHash : List UInt8)
    (sr : ShardResult) : DiskExec (List String) := do
  let proof ← mapErr (.wrap ("distributor: proof generation failed for shard " ++
    toString sr.index)) (ofExcept (tree.proofForShard sr.index))
  let sig ← mapErr (.wrap ("distributor: signing shard " ++ toString sr.index ++ " failed"))
    (ofExcept (signShardData L d sr.data))
  let assigned := assignedNodes L cluster commitmentHash sr.index
  keepShard env d assigned commitmentHash sr sig
  sendShard env d assigned (shardUpload commitmentHash sr tree.rootBytes (serializeProof proof)
    d.proposerPubkey sig)
  return assigned

def placeShards (tree : MerkleTree) (cluster : List String) (commitmentHash : List UInt8) :
    List ShardResult → Store ℤ (List String) → DiskExec (Store ℤ (List String))
  | [], nodeMap => pure nodeMap
  | sr :: rest, nodeMap => do
      let assigned ← placeShard L env d tree cluster commitmentHash sr
      placeShards tree cluster commitmentHash rest (nodeMap.set sr.index assigned)

def distributeShards (shards : List ShardResult) (commitmentHash : List UInt8)
    (peerAddrs : List String) : DiskExec TFHEShardMeta := do
  require (decide (shards.length = erasureTotalShards))
    (.plain ("distributor: expected " ++ toString erasureTotalShards ++ " shards, got " ++
      toString shards.length))
  let tree ← mapErr (.wrap "distributor: Merkle tree construction failed")
    (ofExcept (buildMerkleTree L shards))
  let cluster := clusterNodes (d.resolvedNodeID env) peerAddrs env.tfhePeers
  let nodeMap ← placeShards L env d tree cluster commitmentHash shards ∅
  return ⟨commitmentHash, 0, nodeMap, tree.rootBytes, d.proposerPubkey⟩

end Distribution

section Outcomes
variable {L : ShardLibs} {env : Environment} {d : ShardDistributor} {f : NodeFiles}

/-- The signature over a shard, empty without a key. -/
def signatureOf (L : ShardLibs) (d : ShardDistributor) (data : List UInt8) : List UInt8 :=
  d.signingKey.elim [] fun kp => L.signTo kp.privateKey (L.sum256 data).toList

theorem signShardData_eq (data : List UInt8) :
    signShardData L d data = .ok (signatureOf L d data) := by
  unfold signShardData signatureOf
  cases d.signingKey with
  | none => rfl
  | some kp =>
      have hsign : pqcSign L (L.sum256 data).toList kp.privateKey =
          .ok (L.signTo kp.privateKey (L.sum256 data).toList) :=
        if_neg (not_not.mpr kp.private_size)
      simp only [hsign, Option.elim_some]

theorem storeShard_ok {commitmentHash data : List UInt8} {shardIndex : ℤ} {u : Unit}
    {t : NodeFiles} : storeShard env commitmentHash shardIndex data f = .ok u t ↔
      (commitmentHash ≠ [] ∧ (0 ≤ shardIndex ∧ shardIndex < erasureTotalShards) ∧ data ≠ [] ∧
        env.writeShard commitmentHash shardIndex = .ok ()) ∧
      { f with shards := f.shards.set (commitmentHash, shardIndex) data } = t := by
  simp [storeShard, and_assoc, Unique.exists_iff]

theorem storeShard_returns {commitmentHash data : List UInt8} {shardIndex : ℤ} :
    (∃ u t, storeShard env commitmentHash shardIndex data f = .ok u t) ↔
      commitmentHash ≠ [] ∧ (0 ≤ shardIndex ∧ shardIndex < erasureTotalShards) ∧ data ≠ [] ∧
        env.writeShard commitmentHash shardIndex = .ok () := by
  simp only [storeShard_ok, exists_and_left, exists_eq', and_true, exists_const]

theorem storeShardSignature_returns {commitmentHash sig : List UInt8} {shardIndex : ℤ} :
    (∃ u t, storeShardSignature env commitmentHash shardIndex sig f = .ok u t) ↔
      (sig ≠ [] → env.writeSignature commitmentHash shardIndex = .ok ()) := by
  unfold storeShardSignature
  split_ifs with hsig
  · have hnil : sig = [] := List.isEmpty_iff.mp hsig
    simp [hnil]
  · have hne : sig ≠ [] := fun hnil => hsig (List.isEmpty_iff.mpr hnil)
    simp [hne, Unique.exists_iff]

/-- A shard assigned to the node itself has to reach its disk. -/
def Keeps (L : ShardLibs) (env : Environment) (d : ShardDistributor) (cluster : List String)
    (commitmentHash : List UInt8) (sr : ShardResult) : Prop :=
  d.resolvedNodeID env ∈ assignedNodes L cluster commitmentHash sr.index →
    sr.data ≠ [] ∧ env.writeShard commitmentHash sr.index = .ok () ∧
      (signatureOf L d sr.data ≠ [] → env.writeSignature commitmentHash sr.index = .ok ())

/-- Requests to peers never stop the loop. -/
theorem sendShard_returns (env : Environment) (d : ShardDistributor) (assigned : List String)
    (upload : ShardUpload) (f : NodeFiles) :
    ∃ t, sendShard env d assigned upload f = .ok () t := by
  refine forM_returns (fun peerAddr s => ?_) _ f
  have hsend : sendShardToPeer env peerAddr upload s = ofExcept (env.respond peerAddr upload)
    { s with outbox := s.outbox ++ [(peerAddr, upload)] } := rfl
  rw [ignoreErr, hsend]
  cases env.respond peerAddr upload with
  | ok u => exact ⟨_, rfl⟩
  | error e => exact ⟨_, rfl⟩

variable {tree : MerkleTree} {cluster : List String} {commitmentHash : List UInt8}

theorem keepShard_returns {sr : ShardResult} (hhash : commitmentHash ≠ [])
    (hindex : 0 ≤ sr.index ∧ sr.index < erasureTotalShards) :
    (∃ t, keepShard env d (assignedNodes L cluster commitmentHash sr.index) commitmentHash sr
      (signatureOf L d sr.data) f = .ok () t) ↔ Keeps L env d cluster commitmentHash sr := by
  unfold keepShard Keeps
  split_ifs with hassigned
  · simp only [bind_ok, mapErr_ok, hassigned, forall_const]
    constructor
    · rintro ⟨t, u, m, hstore, hsig⟩
      obtain ⟨-, -, hdata, hwrite⟩ := storeShard_returns.mp ⟨u, m, hstore⟩
      exact ⟨hdata, hwrite, storeShardSignature_returns.mp ⟨(), t, hsig⟩⟩
    · rintro ⟨hdata, hwrite, hsig⟩
      obtain ⟨u, m, hstore⟩ := (storeShard_returns (f := f)).mpr ⟨hhash, hindex, hdata, hwrite⟩
      obtain ⟨_, t, hstored⟩ := (storeShardSignature_returns (f := m)).mpr hsig
      exact ⟨t, u, m, hstore, hstored⟩
  · exact iff_of_true ⟨f, rfl⟩ fun h => absurd h hassigned

theorem placeShard_ok {sr : ShardResult} {assigned : List String} {t : NodeFiles}
    (h : placeShard L env d tree cluster commitmentHash sr f = .ok assigned t) :
    assigned = assignedNodes L cluster commitmentHash sr.index := by
  simp only [placeShard, bind_ok, pure_ok] at h
  obtain ⟨_, _, -, _, _, -, _, _, -, _, _, -, rfl, -⟩ := h
  rfl

theorem placeShard_returns {sr : ShardResult} (hhash : commitmentHash ≠ [])
    (hindex : 0 ≤ sr.index ∧ sr.index < erasureTotalShards)
    (hproof : ∃ path, tree.proofForShard sr.index = .ok path) :
    (∃ assigned t, placeShard L env d tree cluster commitmentHash sr f = .ok assigned t) ↔
      Keeps L env d cluster commitmentHash sr := by
  obtain ⟨path, hpath⟩ := hproof
  rw [← keepShard_returns (f := f) hhash hindex]
  simp only [placeShard, bind_ok, pure_ok, mapErr_ok, ofExcept_ok, hpath, signShardData_eq,
    Except.ok.injEq]
  constructor
  · rintro ⟨_, _, _, _, ⟨rfl, rfl⟩, _, _, ⟨rfl, rfl⟩, _, m, hkeep, -⟩
    exact ⟨m, hkeep⟩
  · rintro ⟨m, hkeep⟩
    obtain ⟨t, hsend⟩ := sendShard_returns env d (assignedNodes L cluster commitmentHash sr.index)
      (shardUpload commitmentHash sr tree.rootBytes (serializeProof path) d.proposerPubkey
        (signatureOf L d sr.data)) m
    exact ⟨_, t, path, f, ⟨rfl, rfl⟩, _, f, ⟨rfl, rfl⟩, (), m, hkeep, (), t, hsend, rfl, rfl⟩

theorem placeShards_ok {shards : List ShardResult} {nodeMap m : Store ℤ (List String)}
    {t : NodeFiles}
    (h : placeShards L env d tree cluster commitmentHash shards nodeMap f = .ok m t) :
    m = shards.foldl (fun m sr => m.set sr.index (assignedNodes L cluster commitmentHash sr.index))
      nodeMap := by
  induction shards generalizing nodeMap f with
  | nil => exact ((pure_ok _ _).mp h).1.symm
  | cons sr rest ih =>
      obtain ⟨assigned, u, hplace, hrest⟩ := (bind_ok _ _).mp h
      rw [List.foldl_cons, ← placeShard_ok hplace]
      exact ih hrest

theorem placeShards_returns {shards : List ShardResult} (nodeMap : Store ℤ (List String))
    (hhash : commitmentHash ≠ [])
    (hindex : ∀ sr ∈ shards, 0 ≤ sr.index ∧ sr.index < erasureTotalShards)
    (hproof : ∀ sr ∈ shards, ∃ path, tree.proofForShard sr.index = .ok path) :
    (∃ m t, placeShards L env d tree cluster commitmentHash shards nodeMap f = .ok m t) ↔
      ∀ sr ∈ shards, Keeps L env d cluster commitmentHash sr := by
  induction shards generalizing nodeMap f with
  | nil => exact iff_of_true ⟨nodeMap, f, rfl⟩ (by simp)
  | cons sr rest ih =>
      rw [List.forall_mem_cons] at hindex hproof ⊢
      simp only [placeShards, bind_ok]
      constructor
      · rintro ⟨m, t, assigned, u, hplace, hrest⟩
        exact ⟨(placeShard_returns hhash hindex.1 hproof.1).mp ⟨assigned, u, hplace⟩,
          (ih _ hindex.2 hproof.2).mp ⟨m, t, hrest⟩⟩
      · rintro ⟨hkeeps, hrest⟩
        obtain ⟨assigned, u, hplace⟩ := (placeShard_returns (f := f) hhash hindex.1 hproof.1).mpr
          hkeeps
        obtain ⟨m, t, hplaced⟩ := (ih (f := u) (nodeMap.set sr.index assigned) hindex.2
          hproof.2).mpr hrest
        exact ⟨m, t, assigned, u, hplace, hplaced⟩

/-- Where each shard goes. -/
def placementMap (L : ShardLibs) (cluster : List String) (commitmentHash : List UInt8)
    (shards : List ShardResult) : Store ℤ (List String) :=
  shards.foldl (fun m sr => m.set sr.index (assignedNodes L cluster commitmentHash sr.index)) ∅

theorem placementMap_get {L : ShardLibs} {cluster : List String} {commitmentHash : List UInt8}
    {shards : List ShardResult} {sr : ShardResult} (h : sr ∈ shards) :
    (placementMap L cluster commitmentHash shards).get sr.index =
      some (assignedNodes L cluster commitmentHash sr.index) := by
  rw [placementMap, Store.get_foldl_set ShardResult.index (assignedNodes L cluster commitmentHash),
    if_pos (List.mem_map_of_mem h)]

/-- Everything a node is assigned reaches its disk. -/
def Distributes (L : ShardLibs) (env : Environment) (d : ShardDistributor)
    (shards : List ShardResult) (commitmentHash : List UInt8) (peerAddrs : List String) : Prop :=
  ∀ sr ∈ shards,
    Keeps L env d (clusterNodes (d.resolvedNodeID env) peerAddrs env.tfhePeers) commitmentHash sr

variable {shards : List ShardResult} {peerAddrs : List String}

theorem distributeShards_ok {tfheMeta : TFHEShardMeta} {t : NodeFiles}
    (h : distributeShards L env d shards commitmentHash peerAddrs f = .ok tfheMeta t) :
    tfheMeta.commitmentHash = commitmentHash ∧ tfheMeta.shardNodeMap = placementMap L
      (clusterNodes (d.resolvedNodeID env) peerAddrs env.tfhePeers) commitmentHash shards := by
  simp only [distributeShards, bind_ok, pure_ok] at h
  obtain ⟨_, _, -, tree, _, -, nodeMap, _, hplace, rfl, -⟩ := h
  exact ⟨rfl, placeShards_ok hplace⟩

theorem distributeShards_returns (hhash : commitmentHash ≠ []) (hshards : WellIndexed shards) :
    (∃ tfheMeta t, distributeShards L env d shards commitmentHash peerAddrs f = .ok tfheMeta t) ↔
      Distributes L env d shards commitmentHash peerAddrs := by
  obtain ⟨tree, htree, hleaves⟩ := buildMerkleTree_ok L hshards
  have hproof : ∀ sr ∈ shards, ∃ path, tree.proofForShard sr.index = .ok path := by
    intro sr hsr
    have hindex := hshards.2 sr hsr
    rw [MerkleTree.proofForShard, hleaves, if_neg (by omega)]
    exact ⟨_, rfl⟩
  rw [Distributes, ← placeShards_returns (f := f) ∅ hhash hshards.2 hproof]
  simp only [distributeShards, bind_ok, require_ok, pure_ok, mapErr_ok, ofExcept_ok, htree,
    Except.ok.injEq, decide_eq_true_eq]
  constructor
  · rintro ⟨_, _, _, _, ⟨-, rfl⟩, _, _, ⟨rfl, rfl⟩, m, t, hplaced, -⟩
    exact ⟨m, t, hplaced⟩
  · rintro ⟨m, t, hplaced⟩
    exact ⟨_, t, (), f, ⟨hshards.1, rfl⟩, tree, f, ⟨rfl, rfl⟩, m, t, hplaced, rfl, rfl⟩

end Outcomes

end Zytherion.ShardPlacement
