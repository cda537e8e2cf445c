import Zytherion.CallFrames
import Zytherion.PlacedShards
import Zytherion.Commitments

/-!
# Submissions on a node

The chain's store is rolled back when a transaction fails or is only simulated.
The node's files are not: `TFHESubmit` writes the shards to the disk in the middle
of the handler, and what runs after that, three store writes and a charge for the
size of the ciphertext, can still run out of gas.

Here the handler runs over the store and the files of one node with the gas that
is left to it. Whatever stops it leaves the files as they are.
-/
namespace Zytherion.SubmitRuns

open GoCall KeyedStore Application ByteStrings Shards ShardPlacement TfheSubmit PlacedShards
open Commitments

/-- What stops a handler. Unlike elsewhere a panic carries the state, since the files
outlive it. -/
inductive Halt where
  | error (e : Err)
  | outOfGas (descriptor : String)
  | panic (reason : String)

structure NodeState where
  store : KVStore
  files : NodeFiles

/-- With the gas that is left. -/
structure GasState extends NodeState where
  gas : ℕ

abbrev Metered (α : Type) : Type := Call GasState Halt α

/-- A call on a part of the state. -/
def onPart {σ α : Type} (view : GasState → σ) (put : GasState → σ → GasState) (x : Call σ Err α) :
    Metered α := fun w =>
  match x (view w) with
  | .ok a t => .ok a (put w t)
  | .err e t => .err (.error e) (put w t)
  | .panic r => .err (.panic r) w

def onChain {α : Type} (x : PrivacyExec α) : Metered α :=
  onPart (fun w => w.store) (fun w t => { w with store := t }) x

def onDisk {α : Type} (x : DiskExec α) : Metered α :=
  onPart (fun w => w.files) (fun w t => { w with files := t }) x

/-- The context put before a returned error. -/
def wrapErr {α : Type} (g : Err → Err) (x : Metered α) : Metered α :=
  mapErr (fun | .error e => .error (g e) | h => h) x

def consumeGas (amount : ℕ) (descriptor : String) : Metered Unit := fun w =>
  if w.gas < amount then .err (.outOfGas descriptor) { w with gas := 0 }
  else .ok () { w with gas := w.gas - amount }

def consumeAll (charges : List (ℕ × String)) : Metered Unit :=
  charges.forM fun charge => consumeGas charge.1 charge.2

def readCostFlat : ℕ := 1000
def readCostPerByte : ℕ := 3
def writeCostFlat : ℕ := 2000
def writeCostPerByte : ℕ := 30
def tfheGasPerKB : ℕ := 1500

def readCharges (key value : List UInt8) : List (ℕ × String) :=
  [(readCostFlat, "ReadFlat"), (readCostPerByte * key.length, "ReadPerByte"),
    (readCostPerByte * value.length, "ReadPerByte")]

def writeCharges (key value : List UInt8) : List (ℕ × String) :=
  [(writeCostFlat, "WriteFlat"), (writeCostPerByte * key.length, "WritePerByte"),
    (writeCostPerByte * value.length, "WritePerByte")]

/-- A read does not change anything, so that it may as well be charged first. -/
def chargeRead (key : List UInt8) : Metered Unit := fun w =>
  consumeAll (readCharges key ((w.store.get key).getD [])) w

def meteredSet (key value : List UInt8) : Metered Unit := do
  consumeAll (writeCharges key value)
  onChain (modifyStore fun s => s.set key value)

namespace Metered

def getTFHEQuota (addr : AccAddress) : Metered ℕ := do
  chargeRead (tfheQuotaKey addr)
  gets fun w => TfheSubmit.getTFHEQuota addr w.store

def setTFHEMeta (L : PrivacyLibs) (tfheMeta : TFHEShardMeta) : Metered Unit := do
  onChain (require (!tfheMeta.commitmentHash.isEmpty)
    (.plain "SetTFHEMeta: meta is nil or has empty commitment hash"))
  meteredSet (tfheMetaKey tfheMeta.commitmentHash) (marshalTFHEMeta L tfheMeta)

def setCommitment (addr : AccAddress) (commitment : List UInt8) : Metered Unit := do
  onChain (require (decide (commitment.length = 32))
    (.plain ("SetCommitment: commitment must be 32 bytes, got " ++ toString commitment.length)))
  meteredSet (commitmentKey addr) commitment

def incrTFHEQuota (addr : AccAddress) : Metered Unit := do
  let quota ← getTFHEQuota addr
  meteredSet (tfheQuotaKey addr) (bigEndian 8 (quota + 1))

end Metered

/-- A transaction with one submission: the gas left to its handler, what reading the
validators costs, and the node as it is when it executes. -/
structure SubmitTx where
  simulate : Bool
  gas : ℕ
  validatorCharges : List (ℕ × String)
  monikers : List String
  node : LocalNode
  msg : MsgTFHESubmit

section Handler
variable (A : App) (L : PrivacyLibs)

/-- Everything before the distribution. -/
def approach (tx : SubmitTx) : Metered Submission := do
  let senderAddr ← onChain (checkMessage A tx.msg)
  let quota ← Metered.getTFHEQuota senderAddr
  onChain (checkQuota tx.msg quota)
  let sub ← onChain (splitMessage L tx.msg senderAddr)
  consumeAll tx.validatorCharges
  return sub

def distribute (tx : SubmitTx) (sub : Submission) : Metered TFHEShardMeta :=
  match tx.node.shardDistributor with
  | none => fun w => .err (.panic "invalid memory address or nil pointer dereference") w
  | some d =>
      wrapErr (fun e => errorf errShardOperationFailed ("shard distribution failed: " ++ e.text))
        (onDisk (distributeShards L.toShardLibs tx.node.env d sub.shards sub.commitmentHash
          (getValidatorMonikers tx.monikers)))

/-- Everything after it. -/
def record (tx : SubmitTx) (sub : Submission) (shardMeta : TFHEShardMeta) :
    Metered MsgTFHESubmitResponse := do
  wrapErr (.wrap "failed to store shard metadata") (Metered.setTFHEMeta L shardMeta)
  wrapErr (.wrap "failed to set commitment")
    (Metered.setCommitment sub.sender sub.commitmentHash)
  Metered.incrTFHEQuota sub.sender
  consumeGas ((tx.msg.ciphertext.length + 1023) / 1024 * tfheGasPerKB) "tfhe-ciphertext-storage"
  return ⟨sub.commitmentHash, erasureTotalShards⟩

def submit (tx : SubmitTx) : Metered MsgTFHESubmitResponse := do
  let sub ← approach A L tx
  let shardMeta ← distribute L tx sub
  let shardMeta := { shardMeta with
    originalLen := tx.msg.ciphertext.length
    merkleRoot := sub.merkleRoot
    proposerPubkey := tx.node.distributor.proposerPubkey }
  record L tx sub shardMeta

/-- A transaction on a node: the store is kept if it succeeded and was not simulated,
the files in any case. -/
def deliver (w : NodeState) (tx : SubmitTx) : NodeState :=
  match submit A L tx ⟨w, tx.gas⟩ with
  | .ok _ t => if tx.simulate then ⟨w.store, t.files⟩ else t.toNodeState
  | .err _ t => ⟨w.store, t.files⟩
  | .panic _ => w

end Handler

section Inversion
variable {α : Type} {a : α} {u : Unit} {w w' : GasState}

theorem onPart_ok {σ : Type} {view : GasState → σ} {put : GasState → σ → GasState}
    {x : Call σ Err α} :
    onPart view put x w = .ok a w' ↔ ∃ t, x (view w) = .ok a t ∧ put w t = w' := by
  unfold onPart
  cases x (view w) with
  | ok b t =>
      simp only [Outcome.ok.injEq]
      constructor
      · rintro ⟨rfl, rfl⟩
        exact ⟨t, ⟨rfl, rfl⟩, rfl⟩
      · rintro ⟨_, ⟨rfl, rfl⟩, rfl⟩
        exact ⟨rfl, rfl⟩
  | err e t => simp
  | panic r => simp

@[simp] theorem onChain_ok {x : PrivacyExec α} :
    onChain x w = .ok a w' ↔ ∃ t, x w.store = .ok a t ∧ { w with store := t } = w' := onPart_ok

@[simp] theorem onDisk_ok {x : DiskExec α} :
    onDisk x w = .ok a w' ↔ ∃ t, x w.files = .ok a t ∧ { w with files := t } = w' := onPart_ok

@[simp] theorem wrapErr_ok {g : Err → Err} {x : Metered α} :
    wrapErr g x w = .ok a w' ↔ x w = .ok a w' := mapErr_ok ..

@[simp] theorem consumeGas_ok {amount : ℕ} {descriptor : String} :
    consumeGas amount descriptor w = .ok u w' ↔
      amount ≤ w.gas ∧ { w with gas := w.gas - amount } = w' := by
  unfold consumeGas
  split_ifs with h
  · simp [h]
  · simp [not_lt.mp h]

/-- What a list of charges comes to. -/
def cost (charges : List (ℕ × String)) : ℕ := (charges.map Prod.fst).sum

@[simp] theorem consumeAll_ok {charges : List (ℕ × String)} :
    consumeAll charges w = .ok u w' ↔
      cost charges ≤ w.gas ∧ { w with gas := w.gas - cost charges } = w' := by
  induction charges generalizing w with
  | nil =>
      show (pure PUnit.unit : Metered PUnit) w = .ok u w' ↔ _
      simp [cost]
  | cons charge charges ih =>
      have hcost : cost (charge :: charges) = charge.1 + cost charges := by simp [cost]
      show (consumeGas charge.1 charge.2 >>= fun _ => consumeAll charges) w = .ok u w' ↔ _
      simp only [bind_ok, consumeGas_ok, hcost]
      constructor
      · rintro ⟨_, _, ⟨hfirst, rfl⟩, hrest⟩
        obtain ⟨hgas, rfl⟩ := ih.mp hrest
        simp only at hgas ⊢
        exact ⟨by omega, by rw [Nat.sub_add_eq]⟩
      · rintro ⟨hgas, rfl⟩
        refine ⟨(), _, ⟨by omega, rfl⟩, ih.mpr ⟨?_, ?_⟩⟩
        · simp only
          omega
        · simp only [Nat.sub_add_eq]

end Inversion

section Phases
variable {A : App} {L : PrivacyLibs} {tx : SubmitTx} {w w' : GasState} {sub : Submission}

/-- The gas used before the distribution. -/
def gasBefore (tx : SubmitTx) (sender : AccAddress) (s : KVStore) : ℕ :=
  cost (readCharges (tfheQuotaKey sender) ((s.get (tfheQuotaKey sender)).getD [])) +
    cost tx.validatorCharges

/-- The gas used after it. -/
def gasAfter (L : PrivacyLibs) (tx : SubmitTx) (sender : AccAddress) (tfheMeta : TFHEShardMeta)
    (s : KVStore) : ℕ :=
  cost (writeCharges (tfheMetaKey (commitmentOf L tx.msg)) (marshalTFHEMeta L tfheMeta)) +
    cost (writeCharges (commitmentKey sender) (commitmentOf L tx.msg)) +
    cost (readCharges (tfheQuotaKey sender) ((s.get (tfheQuotaKey sender)).getD [])) +
    cost (writeCharges (tfheQuotaKey sender) (bigEndian 8 (getTFHEQuota sender s + 1))) +
    (tx.msg.ciphertext.length + 1023) / 1024 * tfheGasPerKB

theorem getTFHEQuota_ok {addr : AccAddress} {quota : ℕ} :
    Metered.getTFHEQuota addr w = .ok quota w' ↔
      cost (readCharges (tfheQuotaKey addr) ((w.store.get (tfheQuotaKey addr)).getD [])) ≤ w.gas ∧
      quota = getTFHEQuota addr w.store ∧
      { w with gas := w.gas - cost (readCharges (tfheQuotaKey addr)
        ((w.store.get (tfheQuotaKey addr)).getD [])) } = w' := by
  simp only [Metered.getTFHEQuota, chargeRead, bind_ok, consumeAll_ok, gets_ok]
  constructor
  · rintro ⟨_, _, ⟨hgas, rfl⟩, rfl, rfl⟩
    exact ⟨hgas, rfl, rfl⟩
  · rintro ⟨hgas, rfl, rfl⟩
    exact ⟨(), _, ⟨hgas, rfl⟩, rfl, rfl⟩

theorem approach_ok : approach A L tx w = .ok sub w' ↔ ∃ sender shards tree,
    Admitted A L tx.msg w.store sender shards ∧
    buildMerkleTree L.toShardLibs shards = .ok tree ∧
    gasBefore tx sender w.store ≤ w.gas ∧
    sub = ⟨sender, commitmentOf L tx.msg, shards, tree.rootBytes⟩ ∧
    { w with gas := w.gas - gasBefore tx sender w.store } = w' := by
  simp only [approach, bind_ok, onChain_ok, checkMessage_ok, checkQuota_ok, splitMessage_ok,
    getTFHEQuota_ok, consumeAll_ok, pure_ok]
  constructor
  · rintro ⟨sender, _, ⟨_, ⟨⟨hsender, hlarge, hsmall⟩, rfl⟩, rfl⟩, _, _, ⟨hread, rfl, rfl⟩, _, _,
      ⟨_, ⟨hquota, rfl⟩, rfl⟩, _, _, ⟨_, ⟨⟨shards, tree, hsplit, htree, rfl⟩, rfl⟩, rfl⟩, _, _,
      ⟨hcharges, rfl⟩, rfl, rfl⟩
    simp only at hread hcharges
    refine ⟨sender, shards, tree, ⟨hsender, hlarge, hsmall, hquota, hsplit⟩, htree, ?_, rfl, ?_⟩
    · unfold gasBefore
      omega
    · simp only [gasBefore, Nat.sub_add_eq]
  · rintro ⟨sender, shards, tree, h, htree, hgas, rfl, rfl⟩
    unfold gasBefore at hgas
    exact ⟨sender, w, ⟨w.store, ⟨⟨h.address, h.large, h.small⟩, rfl⟩, rfl⟩, _, _,
      ⟨by omega, rfl, rfl⟩, (), _, ⟨_, ⟨h.quota, rfl⟩, rfl⟩, _, _,
      ⟨_, ⟨⟨shards, tree, h.split, htree, rfl⟩, rfl⟩, rfl⟩, (), _,
      ⟨by simp only; omega, rfl⟩, rfl, by simp only [gasBefore, Nat.sub_add_eq]⟩

theorem meteredSet_ok {key value : List UInt8} {u : Unit} :
    meteredSet key value w = .ok u w' ↔ cost (writeCharges key value) ≤ w.gas ∧
      (⟨⟨w.store.set key value, w.files⟩, w.gas - cost (writeCharges key value)⟩ : GasState) =
        w' := by
  simp only [meteredSet, bind_ok, consumeAll_ok, onChain_ok, modifyStore_ok]
  constructor
  · rintro ⟨_, _, ⟨hgas, rfl⟩, _, rfl, rfl⟩
    exact ⟨hgas, rfl⟩
  · rintro ⟨hgas, rfl⟩
    exact ⟨(), _, ⟨hgas, rfl⟩, _, rfl, rfl⟩

/-- Neither of the two writes before it changes the quota. -/
theorem get_quota_written (sender : AccAddress) (c bz : List UInt8) (s : KVStore) :
    ((s.set (tfheMetaKey c) bz).set (commitmentKey sender) c).get (tfheQuotaKey sender) =
      s.get (tfheQuotaKey sender) := by
  rw [Store.get_set_ne _ _ (tfheQuotaKey_ne_commitmentKey sender sender),
    Store.get_set_ne _ _ (tfheMetaKey_ne_tfheQuotaKey c sender).symm]

/-- With enough gas the rest of the handler returns. -/
theorem record_ok {sender : AccAddress} {shards : List ShardResult} {merkleRoot : List UInt8}
    {tfheMeta : TFHEShardMeta} {r : MsgTFHESubmitResponse}
    (hhash : tfheMeta.commitmentHash = commitmentOf L tx.msg) :
    record L tx ⟨sender, commitmentOf L tx.msg, shards, merkleRoot⟩ tfheMeta w = .ok r w' ↔
      gasAfter L tx sender tfheMeta w.store ≤ w.gas ∧
      r = ⟨commitmentOf L tx.msg, erasureTotalShards⟩ ∧
      (⟨⟨recorded L tx.msg sender tfheMeta w.store, w.files⟩,
        w.gas - gasAfter L tx sender tfheMeta w.store⟩ : GasState) = w' := by
  have hlen := commitmentOf_length L tx.msg
  have hne : (commitmentOf L tx.msg).isEmpty = false :=
    List.isEmpty_eq_false_iff.mpr (commitmentOf_ne_nil L tx.msg)
  have hquota : ∀ bz, getTFHEQuota sender
      ((w.store.set (tfheMetaKey (commitmentOf L tx.msg)) bz).set (commitmentKey sender)
        (commitmentOf L tx.msg)) = getTFHEQuota sender w.store := by
    intro bz
    unfold getTFHEQuota
    rw [get_quota_written]
  simp only [record, Metered.setTFHEMeta, Metered.setCommitment, Metered.incrTFHEQuota, bind_ok,
    wrapErr_ok, onChain_ok, require_ok, meteredSet_ok, getTFHEQuota_ok, consumeGas_ok, pure_ok,
    hhash, hne, hlen]
  constructor
  · rintro ⟨_, _, ⟨_, _, ⟨_, ⟨-, rfl⟩, rfl⟩, hmeta, rfl⟩, _, _,
      ⟨_, _, ⟨_, ⟨-, rfl⟩, rfl⟩, hcommitment, rfl⟩, _, _, ⟨_, _, ⟨hread, rfl, rfl⟩, hset, rfl⟩,
      _, _, ⟨hextra, rfl⟩, rfl, rfl⟩
    simp only [get_quota_written, hquota] at hmeta hcommitment hread hset hextra
    refine ⟨?_, rfl, ?_⟩
    · unfold gasAfter
      omega
    · simp only [recorded, setTFHEQuota, get_quota_written, hquota, gasAfter, Nat.sub_add_eq]
  · rintro ⟨hgas, rfl, rfl⟩
    unfold gasAfter at hgas
    refine ⟨(), _, ⟨(), w, ⟨_, ⟨rfl, rfl⟩, rfl⟩, by omega, rfl⟩, (), _,
      ⟨(), _, ⟨_, ⟨rfl, rfl⟩, rfl⟩, by simp only; omega, rfl⟩, (), _,
      ⟨_, _, ⟨?_, rfl, rfl⟩, ?_, rfl⟩, (), _, ⟨?_, rfl⟩, rfl, ?_⟩
    · simp only [get_quota_written]
      omega
    · simp only [get_quota_written, hquota]
      omega
    · simp only [get_quota_written, hquota]
      omega
    · simp only [recorded, setTFHEQuota, get_quota_written, hquota, gasAfter, Nat.sub_add_eq]

theorem distribute_ok {m : TFHEShardMeta} : distribute L tx sub w = .ok m w' ↔
    tx.node.storeReady = true ∧ ∃ f,
      distributeShards L.toShardLibs tx.node.env tx.node.distributor sub.shards sub.commitmentHash
        (getValidatorMonikers tx.monikers) w.files = .ok m f ∧ { w with files := f } = w' := by
  unfold distribute LocalNode.shardDistributor
  cases tx.node.storeReady with
  | false => simp
  | true => simp

/-- The node that executes the transaction, with the files it has by now. -/
abbrev SubmitTx.nodeWith (tx : SubmitTx) (f : NodeFiles) : LocalNode := { tx.node with files := f }

/-- The metadata a transaction stores. -/
abbrev SubmitTx.tfheMeta (tx : SubmitTx) (L : PrivacyLibs) (shards : List ShardResult) :
    TFHEShardMeta := storedMeta L tx.monikers tx.msg tx.node shards

theorem completed_tfheMeta {shards : List ShardResult} {tree : MerkleTree} {m : TFHEShardMeta}
    {f f' : NodeFiles} (htree : buildMerkleTree L.toShardLibs shards = .ok tree)
    (h : distributeShards L.toShardLibs tx.node.env tx.node.distributor shards
      (commitmentOf L tx.msg) (getValidatorMonikers tx.monikers) f = .ok m f') :
    { m with
      originalLen := tx.msg.ciphertext.length
      merkleRoot := tree.rootBytes
      proposerPubkey := tx.node.distributor.proposerPubkey } = tx.tfheMeta L shards :=
  completed_meta (n := tx.nodeWith f) htree h

/-- What a submission that succeeds needed and what it leaves behind. -/
theorem submit_ok {r : MsgTFHESubmitResponse} : submit A L tx w = .ok r w' ↔
    ∃ sender shards m f, Admitted A L tx.msg w.store sender shards ∧
      tx.node.storeReady = true ∧
      distributeShards L.toShardLibs tx.node.env tx.node.distributor shards
        (commitmentOf L tx.msg) (getValidatorMonikers tx.monikers) w.files = .ok m f ∧
      gasBefore tx sender w.store + gasAfter L tx sender (tx.tfheMeta L shards) w.store ≤ w.gas ∧
      r = ⟨commitmentOf L tx.msg, erasureTotalShards⟩ ∧
      (⟨⟨recorded L tx.msg sender (tx.tfheMeta L shards) w.store, f⟩, w.gas -
        (gasBefore tx sender w.store + gasAfter L tx sender (tx.tfheMeta L shards) w.store)⟩ :
        GasState) = w' := by
  simp only [submit, bind_ok, approach_ok, distribute_ok]
  constructor
  · rintro ⟨_, _, ⟨sender, shards, tree, hadmitted, htree, hbefore, rfl, rfl⟩, m, _,
      ⟨hready, f, hdistribute, rfl⟩, hrecord⟩
    dsimp only at hdistribute hrecord
    rw [completed_tfheMeta htree hdistribute, record_ok rfl] at hrecord
    obtain ⟨hafter, rfl, rfl⟩ := hrecord
    refine ⟨sender, shards, m, f, hadmitted, hready, hdistribute, ?_, rfl, ?_⟩
    · exact Nat.add_le_of_le_sub' hbefore hafter
    · rw [Nat.sub_add_eq]
  · rintro ⟨sender, shards, m, f, hadmitted, hready, hdistribute, hgas, rfl, rfl⟩
    obtain ⟨tree, htree, -⟩ := buildMerkleTree_ok L.toShardLibs
      (split_wellIndexed L.toShardLibs hadmitted.split)
    refine ⟨_, _, ⟨sender, shards, tree, hadmitted, htree, by omega, rfl, rfl⟩, m, _,
      ⟨hready, f, hdistribute, rfl⟩, ?_⟩
    dsimp only
    rw [completed_tfheMeta htree hdistribute, record_ok rfl]
    refine ⟨?_, rfl, ?_⟩
    · exact Nat.le_sub_of_add_le' hgas
    · simp only [Nat.sub_add_eq]

/-- On the chain's store a submission with enough gas is that of `TFHESubmit`. -/
theorem submit_tfheSubmit {r : MsgTFHESubmitResponse} (h : submit A L tx w = .ok r w') :
    tfheSubmit A L tx.monikers (tx.nodeWith w.files) tx.msg w.store = .ok r w'.store := by
  obtain ⟨sender, shards, m, f, hadmitted, hready, hdistribute, -, rfl, rfl⟩ := submit_ok.mp h
  have hne := commitmentOf_ne_nil L tx.msg
  have hwell := split_wellIndexed L.toShardLibs hadmitted.split
  exact tfheSubmit_ok.mpr ⟨sender, shards, hadmitted,
    ⟨hready, (distributeShards_returns hne hwell).mp ⟨m, f, hdistribute⟩⟩, rfl, rfl⟩

end Phases

section Untouched
variable {α : Type}

theorem onChain_keeps (x : PrivacyExec α) :
    GoCall.Keeps (fun w : GasState => w.files) (onChain x) := by
  intro w w' h
  unfold onChain onPart at h
  cases hx : x w.store <;> rw [hx] at h <;> cases h <;> rfl

theorem consumeGas_keeps (amount : ℕ) (descriptor : String) :
    GoCall.Keeps (fun w : GasState => w.files) (consumeGas amount descriptor) := by
  intro w w' h
  unfold consumeGas at h
  split_ifs at h <;> cases h <;> rfl

theorem consumeAll_keeps (charges : List (ℕ × String)) :
    GoCall.Keeps (fun w : GasState => w.files) (consumeAll charges) :=
  GoCall.Keeps.forM (f := fun charge => consumeGas charge.1 charge.2)
    (fun charge => consumeGas_keeps charge.1 charge.2) charges

/-- Up to the distribution the files are left alone. -/
theorem approach_keeps (A : App) (L : PrivacyLibs) (tx : SubmitTx) :
    GoCall.Keeps (fun w : GasState => w.files) (approach A L tx) := by
  refine .bind (onChain_keeps _) fun sender => .bind (.bind ?_ fun _ => .gets _) fun quota => ?_
  · exact fun w w' => consumeAll_keeps _ w w'
  · exact .bind (onChain_keeps _) fun _ => .bind (onChain_keeps _) fun _ =>
      .bind (consumeAll_keeps _) fun _ => .pure _

end Untouched

section Runs
variable {A : App} {L : PrivacyLibs} {tx : SubmitTx} {w : NodeState}

/-- The transaction gets as far as the distribution of its shards. -/
def Reaches (A : App) (L : PrivacyLibs) (tx : SubmitTx) (s : KVStore) (sender : AccAddress)
    (shards : List ShardResult) : Prop :=
  Admitted A L tx.msg s sender shards ∧ gasBefore tx sender s ≤ tx.gas

/-- If it gets there, it is not a simulation, the disk takes the shards and the gas
lasts to the end. -/
def Completes (A : App) (L : PrivacyLibs) (w : NodeState) (tx : SubmitTx) : Prop :=
  ∀ sender shards, Reaches A L tx w.store sender shards →
    tx.simulate = false ∧ Ready L tx.monikers tx.node (commitmentOf L tx.msg) shards ∧
      gasBefore tx sender w.store + gasAfter L tx sender (tx.tfheMeta L shards) w.store ≤ tx.gas

/-- The transaction with just the gas it needs. -/
def SubmitTx.funded (tx : SubmitTx) (L : PrivacyLibs) (sender : AccAddress)
    (shards : List ShardResult) (s : KVStore) : SubmitTx :=
  { tx with gas := gasBefore tx sender s + gasAfter L tx sender (tx.tfheMeta L shards) s }

theorem funded_completes {sender : AccAddress} {shards : List ShardResult}
    (hadmitted : Admitted A L tx.msg w.store sender shards) (hsimulate : tx.simulate = false)
    (hready : Ready L tx.monikers tx.node (commitmentOf L tx.msg) shards) :
    Completes A L w (tx.funded L sender shards w.store) := by
  rintro sender' shards' ⟨hadmitted', -⟩
  obtain ⟨rfl, rfl⟩ := hadmitted.unique hadmitted'
  exact ⟨hsimulate, hready, le_refl _⟩

theorem funded_submits (tx : SubmitTx) {sender : AccAddress} {shards : List ShardResult}
    (hadmitted : Admitted A L tx.msg w.store sender shards)
    (hready : Ready L tx.monikers tx.node (commitmentOf L tx.msg) shards) :
    ∃ r w', submit A L (tx.funded L sender shards w.store)
      ⟨w, (tx.funded L sender shards w.store).gas⟩ = .ok r w' := by
  obtain ⟨hstore, hdistributes⟩ := hready
  have hne := commitmentOf_ne_nil L tx.msg
  obtain ⟨m, f, hdistribute⟩ := (distributeShards_returns (f := w.files) hne
    (split_wellIndexed L.toShardLibs hadmitted.split)).mpr hdistributes
  exact ⟨_, _, submit_ok.mpr
    ⟨sender, shards, m, f, hadmitted, hstore, hdistribute, le_refl _, rfl, rfl⟩⟩

/-- The node's files hold a shard of the commitment. -/
def Stored (w : NodeState) (c : List UInt8) : Prop := ∃ i, (w.files.shards.get (c, i)).isSome

/-- A transaction that does not get that far changes nothing. -/
theorem deliver_unreached (h : ∀ sender shards, ¬ Reaches A L tx w.store sender shards) :
    deliver A L w tx = w := by
  have happroach : ∀ sub t, approach A L tx ⟨w, tx.gas⟩ ≠ .ok sub t := by
    intro sub t hok
    obtain ⟨sender, shards, _, hadmitted, -, hgas, -⟩ := approach_ok.mp hok
    exact h sender shards ⟨hadmitted, hgas⟩
  unfold deliver
  cases hsubmit : submit A L tx ⟨w, tx.gas⟩ with
  | ok r t =>
      obtain ⟨sub, u, hok, -⟩ := (bind_ok _ _).mp hsubmit
      exact (happroach sub u hok).elim
  | err halt t =>
      rcases (bind_err _ _).mp hsubmit with herr | ⟨sub, u, hok, -⟩
      · have hfiles : t.files = w.files := (approach_keeps A L tx).err herr
        show NodeState.mk w.store t.files = w
        rw [hfiles]
      · exact (happroach sub u hok).elim
  | panic r => rfl

/-- A transaction that completes records its submission and leaves only shards of
its own. -/
theorem deliver_completed {sender : AccAddress} {shards : List ShardResult}
    (hcompletes : Completes A L w tx) (hreaches : Reaches A L tx w.store sender shards) :
    (deliver A L w tx).store = recorded L tx.msg sender (tx.tfheMeta L shards) w.store ∧
      ∀ c, Stored (deliver A L w tx) c → Stored w c ∨ c = commitmentOf L tx.msg := by
  obtain ⟨hsimulate, ⟨hready, hdistributes⟩, hgas⟩ := hcompletes sender shards hreaches
  have hsplit := hreaches.1.split
  have hne := commitmentOf_ne_nil L tx.msg
  have hwell := split_wellIndexed L.toShardLibs hsplit
  obtain ⟨m, f, hdistribute⟩ :=
    (distributeShards_returns (f := w.files) hne hwell).mpr hdistributes
  obtain ⟨tree, htree, -⟩ := buildMerkleTree_ok L.toShardLibs hwell
  have hplaced := distributeShards_files (split_nodup L.toShardLibs hsplit) htree hdistribute
  have hdeliver : deliver A L w tx =
      ⟨recorded L tx.msg sender (tx.tfheMeta L shards) w.store, f⟩ := by
    have hok : submit A L tx ⟨w, tx.gas⟩ = .ok ⟨commitmentOf L tx.msg, erasureTotalShards⟩
        ⟨⟨recorded L tx.msg sender (tx.tfheMeta L shards) w.store, f⟩, tx.gas -
          (gasBefore tx sender w.store + gasAfter L tx sender (tx.tfheMeta L shards) w.store)⟩ :=
      submit_ok.mpr ⟨sender, shards, m, f, hreaches.1, hready, hdistribute, hgas, rfl, rfl⟩
    simp only [deliver, hok, hsimulate, Bool.false_eq_true, if_false]
  rw [hdeliver]
  refine ⟨rfl, ?_⟩
  rintro c ⟨i, hi⟩
  by_cases hc : c = commitmentOf L tx.msg
  · exact .inr hc
  · refine .inl ⟨i, ?_⟩
    rwa [← hplaced.other (c, i) fun sr _ heq => hc (Prod.mk.inj heq).1]

theorem get_meta_recorded (L : PrivacyLibs) (msg : MsgTFHESubmit) (sender : AccAddress)
    (tfheMeta : TFHEShardMeta) (s : KVStore) (c : List UInt8) :
    (recorded L msg sender tfheMeta s).get (tfheMetaKey c) =
      if c = commitmentOf L msg then some (marshalTFHEMeta L tfheMeta)
      else s.get (tfheMetaKey c) := by
  have hkey : tfheMetaKey c = tfheMetaKey (commitmentOf L msg) ↔ c = commitmentOf L msg :=
    List.append_right_inj _
  rw [recorded, setTFHEQuota, Store.get_set_ne _ _ (tfheMetaKey_ne_tfheQuotaKey c sender),
    Store.get_set_ne _ _ (tfheMetaKey_ne_commitmentKey c sender), Store.get_set]
  simp only [hkey]

theorem tfheQuotaKey_inj {a b : AccAddress} (h : tfheQuotaKey a = tfheQuotaKey b) : a = b := by
  cases a
  cases b
  simpa [tfheQuotaKey] using h

/-- A recorded submission uses up the sender's quota and nobody else's. -/
theorem getTFHEQuota_recorded (L : PrivacyLibs) (msg : MsgTFHESubmit) {sender : AccAddress}
    (tfheMeta : TFHEShardMeta) {s : KVStore}
    (hquota : getTFHEQuota sender s < tfheMaxActiveCommitments) (a : AccAddress) :
    getTFHEQuota a (recorded L msg sender tfheMeta s) =
      if a = sender then tfheMaxActiveCommitments else getTFHEQuota a s := by
  have hfirst : getTFHEQuota sender ((s.set (tfheMetaKey (commitmentOf L msg))
      (marshalTFHEMeta L tfheMeta)).set (commitmentKey sender) (commitmentOf L msg)) = 0 := by
    rw [getTFHEQuota, get_quota_written]
    exact Nat.lt_one_iff.mp hquota
  unfold recorded
  simp only [hfirst]
  split_ifs with ha
  · rw [ha, getTFHEQuota, setTFHEQuota, Store.get_set_self]
    decide
  · have hkey : tfheQuotaKey a ≠ tfheQuotaKey sender := fun h => ha (tfheQuotaKey_inj h)
    unfold getTFHEQuota setTFHEQuota
    rw [Store.get_set_ne _ _ hkey, Store.get_set_ne _ _ (tfheQuotaKey_ne_commitmentKey a sender),
      Store.get_set_ne _ _ (tfheMetaKey_ne_tfheQuotaKey _ a).symm]

/-- Every commitment the node holds shards of has metadata on the chain, and is the
commitment of an account whose quota is used up. -/
def Accounted (w : NodeState) : Prop :=
  ∀ c, Stored w c → (w.store.get (tfheMetaKey c)).isSome ∧
    ∃ a, getCommitment a w.store = some c ∧ tfheMaxActiveCommitments ≤ getTFHEQuota a w.store

theorem deliver_accounted (hcompletes : Completes A L w tx) (hw : Accounted w) :
    Accounted (deliver A L w tx) := by
  by_cases hreaches : ∃ sender shards, Reaches A L tx w.store sender shards
  · obtain ⟨sender, shards, hreaches⟩ := hreaches
    obtain ⟨hstore, hstored⟩ := deliver_completed hcompletes hreaches
    have hquota := hreaches.1.quota
    intro c hc
    simp only [hstore, get_meta_recorded, getCommitment_recorded,
      getTFHEQuota_recorded _ _ _ hquota]
    by_cases hown : c = commitmentOf L tx.msg
    · rw [if_pos hown, hown]
      exact ⟨rfl, sender, by rw [if_pos rfl], by rw [if_pos rfl]⟩
    · rw [if_neg hown]
      rcases hstored c hc with hold | hnew
      · obtain ⟨hmeta, a, hcommitment, hused⟩ := hw c hold
        -- the sender still had quota, so that it is not the account of an earlier one
        have ha : a ≠ sender := by
          rintro rfl
          omega
        exact ⟨hmeta, a, by rwa [if_neg ha], by rwa [if_neg ha]⟩
      · exact (hown hnew).elim
  · rw [deliver_unreached fun sender shards h => hreaches ⟨sender, shards, h⟩]
    exact hw

theorem run_accounted {txs : List SubmitTx}
    (hcompletes : Along (deliver A L) (Completes A L) w txs) (hw : Accounted w) :
    Accounted (run (deliver A L) w txs) := by
  induction txs generalizing w with
  | nil => exact hw
  | cons tx txs ih => exact ih hcompletes.2 (deliver_accounted hcompletes.1 hw)

end Runs

/-! A transaction whose gas ends after the shards are on the disk. -/

section Example
open Devnet SubmitAgreement

def freeSubmission : SubmitTx where
  simulate := false
  gas := 0
  validatorCharges := []
  monikers := []
  node := nodeNamed "node1" calmEnv
  msg := sampleMsg

def submission (gas : ℕ) : SubmitTx := { freeSubmission with gas }

def emptyNode : NodeState := ⟨∅, ⟨∅, ∅, []⟩⟩

abbrev fundedSubmission : SubmitTx := freeSubmission.funded sampleLibs alice sampleShards ∅

/-- The state after one submission. -/
abbrev submitted : NodeState := run (deliver devnet sampleLibs) emptyNode [fundedSubmission]

end Example

end Zytherion.SubmitRuns
