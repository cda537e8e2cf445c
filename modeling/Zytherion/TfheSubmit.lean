import Zytherion.ShardPlacement

/-!
# Submitting a ciphertext

`TFHESubmit` admits a message by its sender, its size, the sender's quota and the
code that splits it, hands the shards to the node's distributor and stores where
they went under the hash of the ciphertext.

Admission depends on the chain alone. The distributor is the node's: its name,
its environment, its key and its disk decide whether the submission succeeds and
which bytes are stored.
-/
namespace Zytherion.TfheSubmit

open GoCall KeyedStore Application ByteStrings Shards ShardPlacement

structure MsgTFHESubmit where
  sender : String
  ciphertext : List UInt8

structure MsgTFHESubmitResponse where
  commitmentHash : List UInt8
  totalShards : ℕ

def privacyErr (code : ℕ) (description : String) : Err := .registered "privacy" code description

def errInvalidAddress : Err := privacyErr 1101 "invalid address"
def errInvalidCiphertext : Err := privacyErr 1201 "invalid TFHE ciphertext"
def errShardOperationFailed : Err := privacyErr 1202 "TFHE shard operation failed"
def errTFHEQuotaExceeded : Err :=
  privacyErr 1205 "TFHE ciphertext quota exceeded: revoke existing commitment first"

/-- `fmt.Errorf` with the cause first: what is left of it is its text. -/
def errorf (cause : Err) (detail : String) : Err := .plain (cause.text ++ ": " ++ detail)

section Validation
variable (A : App)

/-- The message server runs it before the handler. -/
def MsgTFHESubmit.validateBasic (msg : MsgTFHESubmit) : Except Err Unit :=
  match A.accAddressFromBech32 msg.sender with
  | .error e => .error (errorf errInvalidAddress e.text)
  | .ok _ =>
      if msg.ciphertext.length = 0 then .error (.plain "ciphertext must not be empty")
      else if 32 * 1024 < msg.ciphertext.length then
        .error (.plain ("ciphertext too large: " ++ toString msg.ciphertext.length ++
          " bytes (max 32 KB)"))
      else .ok ()

variable {A}

theorem MsgTFHESubmit.validateBasic_ok {msg : MsgTFHESubmit} : msg.validateBasic A = .ok () ↔
    (∃ addr, A.accAddressFromBech32 msg.sender = .ok addr) ∧
      msg.ciphertext ≠ [] ∧ msg.ciphertext.length ≤ 32 * 1024 := by
  unfold validateBasic
  rw [← not_lt, ne_eq, ← List.length_eq_zero_iff]
  cases hsender : A.accAddressFromBech32 msg.sender with
  | error e => simp
  | ok addr =>
      simp only [Except.ok.injEq, exists_eq', true_and]
      split_ifs with hempty hlong
      · simp [hempty]
      · simp [hlong]
      · exact iff_of_true rfl ⟨hempty, hlong⟩

end Validation

def minCiphertextSize : ℕ := 1 * 1024
def maxCiphertextSize : ℕ := ciphertextMaxBytes
def tfheMaxActiveCommitments : ℕ := 1

/-! Keys of the privacy module's store. -/

def commitmentKey (addr : AccAddress) : List UInt8 := utf8 "commitment/" ++ addr.bytes
def tfheMetaKey (commitmentHash : List UInt8) : List UInt8 := utf8 "tfhe_meta/" ++ commitmentHash
def tfheQuotaKey (addr : AccAddress) : List UInt8 := utf8 "tfhe_quota/" ++ addr.bytes

theorem tfheMetaKey_ne_commitmentKey (commitmentHash : List UInt8) (addr : AccAddress) :
    tfheMetaKey commitmentHash ≠ commitmentKey addr :=
  labelled_ne 6 (by decide +kernel) (by decide +kernel) (by decide +kernel)

theorem tfheMetaKey_ne_tfheQuotaKey (commitmentHash : List UInt8) (addr : AccAddress) :
    tfheMetaKey commitmentHash ≠ tfheQuotaKey addr :=
  labelled_ne 6 (by decide +kernel) (by decide +kernel) (by decide +kernel)

/-- The form in which metadata is encoded, the entries of the map in the order the
encoder writes them. -/
structure ShardMetaJSON where
  commitmentHash : String
  originalLen : ℤ
  shardNodeMap : List (String × List String)
  merkleRoot : String
  proposerPubkey : String

/-- With the JSON encoder: different values have different texts. -/
structure PrivacyLibs extends ShardLibs where
  marshal : ShardMetaJSON → List UInt8
  marshal_inj : Function.Injective marshal

/-- A map as it is encoded: its keys as texts, in their order. -/
def mapEntries (m : Store ℤ (List String)) : List (String × List String) :=
  (m.entries.map fun e => (toString e.1, e.2)).insertionSort fun a b => a.1 ≤ b.1

def metaJSON (tfheMeta : TFHEShardMeta) : ShardMetaJSON where
  commitmentHash := encodeToString tfheMeta.commitmentHash
  originalLen := tfheMeta.originalLen
  shardNodeMap := mapEntries tfheMeta.shardNodeMap
  merkleRoot := encodeToString tfheMeta.merkleRoot
  proposerPubkey := encodeToString tfheMeta.proposerPubkey

abbrev PrivacyExec (α : Type) : Type := Call KVStore Err α

section Keeper
variable (L : PrivacyLibs)

def marshalTFHEMeta (tfheMeta : TFHEShardMeta) : List UInt8 := L.marshal (metaJSON tfheMeta)

def setTFHEMeta (tfheMeta : TFHEShardMeta) : PrivacyExec Unit := do
  require (!tfheMeta.commitmentHash.isEmpty)
    (.plain "SetTFHEMeta: meta is nil or has empty commitment hash")
  modifyStore fun s => s.set (tfheMetaKey tfheMeta.commitmentHash) (marshalTFHEMeta L tfheMeta)

def setCommitment (addr : AccAddress) (commitment : List UInt8) : PrivacyExec Unit := do
  require (decide (commitment.length = 32))
    (.plain ("SetCommitment: commitment must be 32 bytes, got " ++ toString commitment.length))
  modifyStore fun s => s.set (commitmentKey addr) commitment

def getTFHEQuota (addr : AccAddress) (s : KVStore) : ℕ :=
  let bz := (s.get (tfheQuotaKey addr)).getD []
  if bz.length ≠ 8 then 0 else bigEndianValue bz

def setTFHEQuota (addr : AccAddress) (count : ℕ) (s : KVStore) : KVStore :=
  s.set (tfheQuotaKey addr) (bigEndian 8 count)

def incrTFHEQuota (addr : AccAddress) : PrivacyExec Unit :=
  modifyStore fun s => setTFHEQuota addr (getTFHEQuota addr s + 1) s

/-- The monikers of all validators that have one. -/
def getValidatorMonikers (monikers : List String) : List String := monikers.filter (· ≠ "")

end Keeper

/-- What differs from node to node: the options it was started with, whether its
shard directory could be created, its key, its environment and its files. -/
structure LocalNode where
  moniker : String
  nodeIDOption : String
  storeReady : Bool
  signingKey : Option KeyPair
  env : Environment
  files : NodeFiles

namespace LocalNode
variable (n : LocalNode)

/-- The name `app.New` passes to the keeper. -/
def nodeID : String :=
  if n.moniker ≠ "" then n.moniker
  else if n.nodeIDOption ≠ "" then n.nodeIDOption
  else "local-node"

def distributor : ShardDistributor := ⟨n.nodeID, n.signingKey⟩

/-- Nil if the directory could not be created. -/
def shardDistributor : Option ShardDistributor := if n.storeReady then some n.distributor else none

/-- The name the keeper gets is never empty, so that `TFHE_NODE_ID` is not asked. -/
theorem resolvedNodeID_eq : n.distributor.resolvedNodeID n.env = n.nodeID := by
  have hne : n.nodeID ≠ "" := by
    unfold nodeID
    split_ifs with h₁ h₂
    · exact h₁
    · exact h₂
    · decide
  exact if_pos hne

end LocalNode

/-- What is known of a submission before its shards are distributed. -/
structure Submission where
  sender : AccAddress
  commitmentHash : List UInt8
  shards : List ShardResult
  merkleRoot : List UInt8

section Handler
variable (A : App) (L : PrivacyLibs) (monikers : List String)

/-- The checks before the quota is read. -/
def checkMessage (msg : MsgTFHESubmit) : PrivacyExec AccAddress := do
  let senderAddr ← mapErr (fun e => errorf errInvalidAddress ("invalid sender — " ++ e.text))
    (ofExcept (A.accAddressFromBech32 msg.sender))
  require (!decide (msg.ciphertext.length < minCiphertextSize))
    (errorf errInvalidCiphertext ("ciphertext too small (" ++ toString msg.ciphertext.length ++
      " B < " ++ toString minCiphertextSize ++ " B minimum)"))
  require (!decide (maxCiphertextSize < msg.ciphertext.length))
    (errorf errInvalidCiphertext ("ciphertext too large (" ++ toString msg.ciphertext.length ++
      " B > " ++ toString maxCiphertextSize ++ " B maximum)"))
  return senderAddr

def checkQuota (msg : MsgTFHESubmit) (quota : ℕ) : PrivacyExec Unit :=
  require (!decide (tfheMaxActiveCommitments ≤ quota))
    (errorf errTFHEQuotaExceeded ("address " ++ msg.sender ++ " already has " ++
      toString tfheMaxActiveCommitments ++ " active commitment(s)"))

/-- What follows the quota check and precedes the distribution. -/
def splitMessage (msg : MsgTFHESubmit) (senderAddr : AccAddress) : PrivacyExec Submission := do
  let commitmentHash := (L.sum256 msg.ciphertext).toList
  let shards ← mapErr
    (fun e => errorf errShardOperationFailed ("erasure coding failed: " ++ e.text))
    (ofExcept (split L.toShardLibs msg.ciphertext))
  let merkleTree ← mapErr
    (fun e => errorf errShardOperationFailed ("Merkle tree construction failed: " ++ e.text))
    (ofExcept (buildMerkleTree L.toShardLibs shards))
  return ⟨senderAddr, commitmentHash, shards, merkleTree.rootBytes⟩

/-- Everything `TFHESubmit` does before it turns to the distributor. -/
def admission (msg : MsgTFHESubmit) : PrivacyExec Submission := do
  let senderAddr ← checkMessage A msg
  let quota ← gets (getTFHEQuota senderAddr)
  checkQuota msg quota
  splitMessage L msg senderAddr

/-- The distributor works on the node's files, not on the store. -/
def distribute (n : LocalNode) (sub : Submission) : PrivacyExec TFHEShardMeta := fun s =>
  match n.shardDistributor with
  | none => .panic "invalid memory address or nil pointer dereference"
  | some d =>
      match distributeShards L.toShardLibs n.env d sub.shards sub.commitmentHash
        (getValidatorMonikers monikers) n.files with
      | .ok tfheMeta _ => .ok tfheMeta s
      | .err e _ =>
          .err (errorf errShardOperationFailed ("shard distribution failed: " ++ e.text)) s
      | .panic r => .panic r

/-- What it does once the shards are distributed. -/
def recordSubmission (sub : Submission) (shardMeta : TFHEShardMeta) :
    PrivacyExec MsgTFHESubmitResponse := do
  mapErr (.wrap "failed to store shard metadata") (setTFHEMeta L shardMeta)
  mapErr (.wrap "failed to set commitment") (setCommitment sub.sender sub.commitmentHash)
  incrTFHEQuota sub.sender
  return ⟨sub.commitmentHash, erasureTotalShards⟩

def tfheSubmit (n : LocalNode) (msg : MsgTFHESubmit) : PrivacyExec MsgTFHESubmitResponse := do
  let sub ← admission A L msg
  let shardMeta ← distribute L monikers n sub
  let shardMeta := { shardMeta with
    originalLen := msg.ciphertext.length
    merkleRoot := sub.merkleRoot
    proposerPubkey := n.distributor.proposerPubkey }
  recordSubmission L sub shardMeta

end Handler

section Outcomes
variable {A : App} {L : PrivacyLibs} {monikers : List String} {msg : MsgTFHESubmit} {s : KVStore}

/-- The message is admitted: a matter of the message and the chain. -/
structure Admitted (A : App) (L : PrivacyLibs) (msg : MsgTFHESubmit) (s : KVStore)
    (sender : AccAddress) (shards : List ShardResult) : Prop where
  address : A.accAddressFromBech32 msg.sender = .ok sender
  large : minCiphertextSize ≤ msg.ciphertext.length
  small : msg.ciphertext.length ≤ maxCiphertextSize
  quota : getTFHEQuota sender s < tfheMaxActiveCommitments
  split : split L.toShardLibs msg.ciphertext = .ok shards

def commitmentOf (L : PrivacyLibs) (msg : MsgTFHESubmit) : List UInt8 :=
  (L.sum256 msg.ciphertext).toList

theorem commitmentOf_length (L : PrivacyLibs) (msg : MsgTFHESubmit) :
    (commitmentOf L msg).length = 32 := by
  simp [commitmentOf]

theorem commitmentOf_ne_nil (L : PrivacyLibs) (msg : MsgTFHESubmit) : commitmentOf L msg ≠ [] :=
  List.ne_nil_of_length_eq_add_one (commitmentOf_length L msg)

theorem checkMessage_ok {sender : AccAddress} {t : KVStore} :
    checkMessage A msg s = .ok sender t ↔ (A.accAddressFromBech32 msg.sender = .ok sender ∧
      minCiphertextSize ≤ msg.ciphertext.length ∧ msg.ciphertext.length ≤ maxCiphertextSize) ∧
      s = t := by
  simp only [checkMessage, bind_ok, mapErr_ok, ofExcept_ok, require_ok, pure_ok,
    Bool.not_eq_true', decide_eq_false_iff_not, not_lt]
  constructor
  · rintro ⟨_, _, ⟨hsender, rfl⟩, _, _, ⟨hlarge, rfl⟩, _, _, ⟨hsmall, rfl⟩, rfl, rfl⟩
    exact ⟨⟨hsender, hlarge, hsmall⟩, rfl⟩
  · rintro ⟨⟨hsender, hlarge, hsmall⟩, rfl⟩
    exact ⟨sender, s, ⟨hsender, rfl⟩, (), s, ⟨hlarge, rfl⟩, (), s, ⟨hsmall, rfl⟩, rfl, rfl⟩

theorem checkQuota_ok {quota : ℕ} {u : Unit} {t : KVStore} :
    checkQuota msg quota s = .ok u t ↔ quota < tfheMaxActiveCommitments ∧ s = t := by
  simp [checkQuota]

theorem splitMessage_ok {sender : AccAddress} {sub : Submission} {t : KVStore} :
    splitMessage L msg sender s = .ok sub t ↔ (∃ shards tree,
      split L.toShardLibs msg.ciphertext = .ok shards ∧
      buildMerkleTree L.toShardLibs shards = .ok tree ∧
      sub = ⟨sender, commitmentOf L msg, shards, tree.rootBytes⟩) ∧ s = t := by
  simp only [splitMessage, bind_ok, mapErr_ok, ofExcept_ok, pure_ok]
  constructor
  · rintro ⟨shards, _, ⟨hsplit, rfl⟩, tree, _, ⟨htree, rfl⟩, rfl, rfl⟩
    exact ⟨⟨shards, tree, hsplit, htree, rfl⟩, rfl⟩
  · rintro ⟨⟨shards, tree, hsplit, htree, rfl⟩, rfl⟩
    exact ⟨shards, s, ⟨hsplit, rfl⟩, tree, s, ⟨htree, rfl⟩, rfl, rfl⟩

theorem admission_ok {sub : Submission} {t : KVStore} : admission A L msg s = .ok sub t ↔
    ∃ sender shards tree, Admitted A L msg s sender shards ∧
      buildMerkleTree L.toShardLibs shards = .ok tree ∧
      sub = ⟨sender, commitmentOf L msg, shards, tree.rootBytes⟩ ∧ s = t := by
  simp only [admission, bind_ok, checkMessage_ok, gets_ok, checkQuota_ok, splitMessage_ok]
  constructor
  · rintro ⟨sender, _, ⟨⟨hsender, hlarge, hsmall⟩, rfl⟩, _, _, ⟨rfl, rfl⟩, _, _, ⟨hquota, rfl⟩,
      ⟨shards, tree, hsplit, htree, hsub⟩, rfl⟩
    exact ⟨sender, shards, tree, ⟨hsender, hlarge, hsmall, hquota, hsplit⟩, htree, hsub, rfl⟩
  · rintro ⟨sender, shards, tree, h, htree, hsub, rfl⟩
    exact ⟨sender, s, ⟨⟨h.address, h.large, h.small⟩, rfl⟩, _, s, ⟨rfl, rfl⟩, (), s,
      ⟨h.quota, rfl⟩, ⟨shards, tree, h.split, htree, hsub⟩, rfl⟩

/-- The cluster a node sees. -/
def clusterOf (monikers : List String) (n : LocalNode) : List String :=
  clusterNodes n.nodeID (getValidatorMonikers monikers) n.env.tfhePeers

/-- The node has a distributor, and its disk takes what is assigned to it. -/
def Ready (L : PrivacyLibs) (monikers : List String) (n : LocalNode) (commitmentHash : List UInt8)
    (shards : List ShardResult) : Prop :=
  n.storeReady = true ∧
    Distributes L.toShardLibs n.env n.distributor shards commitmentHash
      (getValidatorMonikers monikers)

def merkleRootOf (L : PrivacyLibs) (shards : List ShardResult) : List UInt8 :=
  ((buildMerkleTree L.toShardLibs shards).toOption.map MerkleTree.rootBytes).getD []

/-- The metadata a node stores. -/
def storedMeta (L : PrivacyLibs) (monikers : List String) (msg : MsgTFHESubmit) (n : LocalNode)
    (shards : List ShardResult) : TFHEShardMeta where
  commitmentHash := commitmentOf L msg
  originalLen := msg.ciphertext.length
  shardNodeMap := placementMap L.toShardLibs (clusterOf monikers n) (commitmentOf L msg) shards
  merkleRoot := merkleRootOf L shards
  proposerPubkey := n.distributor.proposerPubkey

/-- The store a submission leaves behind, given the metadata. -/
def recorded (L : PrivacyLibs) (msg : MsgTFHESubmit) (sender : AccAddress)
    (tfheMeta : TFHEShardMeta) (s : KVStore) : KVStore :=
  let s := s.set (tfheMetaKey (commitmentOf L msg)) (marshalTFHEMeta L tfheMeta)
  let s := s.set (commitmentKey sender) (commitmentOf L msg)
  setTFHEQuota sender (getTFHEQuota sender s + 1) s

theorem distribute_ok {n : LocalNode} {sub : Submission} {tfheMeta : TFHEShardMeta} {t : KVStore} :
    distribute L monikers n sub s = .ok tfheMeta t ↔ n.storeReady = true ∧ s = t ∧
      ∃ f, distributeShards L.toShardLibs n.env n.distributor sub.shards sub.commitmentHash
        (getValidatorMonikers monikers) n.files = .ok tfheMeta f := by
  unfold distribute LocalNode.shardDistributor
  cases n.storeReady with
  | false => simp
  | true =>
      simp only [if_true, true_and]
      cases distributeShards L.toShardLibs n.env n.distributor sub.shards sub.commitmentHash
        (getValidatorMonikers monikers) n.files with
      | ok m f => simp [and_comm]
      | err e f => simp
      | panic r => simp

/-- The metadata the distributor returns, completed by the handler. -/
theorem completed_meta {n : LocalNode} {shards : List ShardResult} {tree : MerkleTree}
    {m : TFHEShardMeta} {f : NodeFiles}
    (htree : buildMerkleTree L.toShardLibs shards = .ok tree)
    (h : distributeShards L.toShardLibs n.env n.distributor shards (commitmentOf L msg)
      (getValidatorMonikers monikers) n.files = .ok m f) :
    { m with
      originalLen := msg.ciphertext.length
      merkleRoot := tree.rootBytes
      proposerPubkey := n.distributor.proposerPubkey } = storedMeta L monikers msg n shards := by
  obtain ⟨hhash, hmap⟩ := distributeShards_ok h
  have hroot : merkleRootOf L shards = tree.rootBytes := by
    simp [merkleRootOf, htree, Except.toOption]
  rw [LocalNode.resolvedNodeID_eq] at hmap
  rw [storedMeta, hroot, clusterOf, ← hmap, ← hhash]

theorem recordSubmission_eq (sender : AccAddress) (shards : List ShardResult)
    (merkleRoot : List UInt8) {shardMeta : TFHEShardMeta}
    (hhash : shardMeta.commitmentHash = commitmentOf L msg) :
    recordSubmission L ⟨sender, commitmentOf L msg, shards, merkleRoot⟩ shardMeta s =
      .ok ⟨commitmentOf L msg, erasureTotalShards⟩ (recorded L msg sender shardMeta s) := by
  have hlen := commitmentOf_length L msg
  have hne : (commitmentOf L msg).isEmpty = false :=
    List.isEmpty_eq_false_iff.mpr (commitmentOf_ne_nil L msg)
  simp only [recordSubmission, setTFHEMeta, setCommitment, incrTFHEQuota, bind_ok, mapErr_ok,
    require_ok, modifyStore_ok, pure_ok, hhash, hne, hlen]
  exact ⟨(), _, ⟨(), s, ⟨rfl, rfl⟩, rfl⟩, (), _, ⟨(), _, ⟨rfl, rfl⟩, rfl⟩, (), _, rfl, trivial, rfl⟩

theorem tfheSubmit_ok {n : LocalNode} {response : MsgTFHESubmitResponse} {t : KVStore} :
    tfheSubmit A L monikers n msg s = .ok response t ↔ ∃ sender shards,
      Admitted A L msg s sender shards ∧ Ready L monikers n (commitmentOf L msg) shards ∧
      response = ⟨commitmentOf L msg, erasureTotalShards⟩ ∧
      t = recorded L msg sender (storedMeta L monikers msg n shards) s := by
  have hne := commitmentOf_ne_nil L msg
  simp only [tfheSubmit, bind_ok, admission_ok, distribute_ok]
  constructor
  · rintro ⟨_, _, ⟨sender, shards, tree, hadmitted, htree, rfl, rfl⟩, m, _,
      ⟨hready, rfl, f, hdistribute⟩, hrecord⟩
    have hwell := split_wellIndexed L.toShardLibs hadmitted.split
    rw [completed_meta htree hdistribute, recordSubmission_eq sender shards tree.rootBytes rfl]
      at hrecord
    cases hrecord
    exact ⟨sender, shards, hadmitted,
      ⟨hready, (distributeShards_returns hne hwell).mp ⟨m, f, hdistribute⟩⟩, rfl, rfl⟩
  · rintro ⟨sender, shards, hadmitted, ⟨hready, hdistributes⟩, rfl, rfl⟩
    have hwell := split_wellIndexed L.toShardLibs hadmitted.split
    obtain ⟨tree, htree, -⟩ := buildMerkleTree_ok L.toShardLibs hwell
    obtain ⟨m, f, hdistribute⟩ :=
      (distributeShards_returns (f := n.files) hne hwell).mpr hdistributes
    refine ⟨_, s, ⟨sender, shards, tree, hadmitted, htree, rfl, rfl⟩, m, s,
      ⟨hready, rfl, f, hdistribute⟩, ?_⟩
    rw [completed_meta htree hdistribute, recordSubmission_eq sender shards tree.rootBytes rfl]

theorem ok_effect {α : Type} {x : PrivacyExec α} {a : α} {t : KVStore} (h : x s = .ok a t) :
    (x s).returned.isSome = true ∧ commit x s = t :=
  ⟨by rw [h]; rfl, commit_ok h⟩

theorem failed_effect {α : Type} {x : PrivacyExec α} (h : ∀ a t, x s ≠ .ok a t) :
    (x s).returned.isSome = false ∧ commit x s = s := by
  refine ⟨?_, commit_of_not_ok h⟩
  rw [Option.isSome_eq_false_iff, Option.isNone_iff_eq_none, Option.eq_none_iff_forall_ne_some]
  intro a hreturned
  obtain ⟨t, ht⟩ := returned_iff.mp hreturned
  exact h a t ht

variable {sender : AccAddress} {shards : List ShardResult} {n : LocalNode}

theorem Admitted.unique (h : Admitted A L msg s sender shards) {sender' : AccAddress}
    {shards' : List ShardResult} (h' : Admitted A L msg s sender' shards') :
    sender' = sender ∧ shards' = shards :=
  ⟨Except.ok.inj (h'.address.symm.trans h.address), Except.ok.inj (h'.split.symm.trans h.split)⟩

theorem Admitted.ready_effect (h : Admitted A L msg s sender shards)
    (hready : Ready L monikers n (commitmentOf L msg) shards) :
    ((tfheSubmit A L monikers n msg) s).returned.isSome = true ∧
      commit (tfheSubmit A L monikers n msg) s =
        recorded L msg sender (storedMeta L monikers msg n shards) s :=
  ok_effect (tfheSubmit_ok.mpr ⟨sender, shards, h, hready, rfl, rfl⟩)

theorem Admitted.unready_effect (h : Admitted A L msg s sender shards)
    (hready : ¬ Ready L monikers n (commitmentOf L msg) shards) :
    ((tfheSubmit A L monikers n msg) s).returned.isSome = false ∧
      commit (tfheSubmit A L monikers n msg) s = s := by
  refine failed_effect fun response t hok => ?_
  obtain ⟨sender', shards', h', hready', -⟩ := tfheSubmit_ok.mp hok
  obtain ⟨rfl, rfl⟩ := h.unique h'
  exact hready hready'

end Outcomes

end Zytherion.TfheSubmit
