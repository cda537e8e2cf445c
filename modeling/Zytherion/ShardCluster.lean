import Zytherion.Reconstruction
import Zytherion.ReedSolomon
import Zytherion.ShardTransfer

/-!
# Nodes that keep each other's shards

Every node that runs `TFHESubmit` hands the shards to its distributor: those assigned to
it go to its disk, the others are sent to its peers. What is sent may arrive late, twice,
at another node or not at all. A node that reads a ciphertext back asks the peers it has
listed and keeps what they answer; an answer may have been given long before it arrives.
Files may get lost, and a submission may be run any number of times, on any store, and
fail half way.

Nobody sends anything else here. Then a disk holds nothing but shards of ciphertexts that
were submitted, under the digest of the ciphertext, so that whatever is read back is what
was submitted. A signature on a disk was made by the node itself: uploads carry signatures,
but they are not stored.
-/
namespace Zytherion.ShardCluster

open GoCall KeyedStore Application ByteStrings Shards ShardPlacement ShardServer TfheSubmit
open ErasureDecoding Reconstruction ReedSolomon Retrievability ShardTransfer UploadText

/-- What the nodes are linked with. -/
structure ClusterLibs extends PrivacyLibs, ServerLibs where
  coder : Coder toShardLibs

/-- The disks and outboxes of all nodes, now and before. -/
structure Cluster where
  files : String → NodeFiles
  past : List (String → NodeFiles)

def Cluster.put (c : Cluster) (node : String) (f : NodeFiles) : Cluster :=
  ⟨Function.update c.files node f, c.files :: c.past⟩

theorem Cluster.put_self (c : Cluster) (node : String) (f : NodeFiles) :
    (c.put node f).files node = f := Function.update_self ..

theorem Cluster.put_of_ne {c : Cluster} {node node' : String} {f : NodeFiles} (h : node' ≠ node) :
    (c.put node f).files node' = c.files node' := Function.update_of_ne h ..

inductive Event where
  /-- The node runs the handler, for a block or otherwise, over some store. -/
  | submit (node : String) (env : Environment) (d : ShardDistributor) (monikers : List String)
      (s : KVStore) (msg : MsgTFHESubmit)
  /-- Something that was sent arrives. -/
  | deliver (node : String) (env : Environment) (sender : String) (k : ℕ)
  /-- The node reads a ciphertext back. Peers that answer do so from a disk of their own. -/
  | reconstruct (node : String) (env : Environment) (nodeID : String) (tfheMeta : TFHEShardMeta)
      (seen : String → ℤ → Option ℕ)
  /-- The shards of a commitment are removed. -/
  | delete (node : String) (commitmentHash : List UInt8)
  /-- A file is lost. -/
  | lose (node : String) (commitmentHash : List UInt8) (index : ℤ)

/-- The directory of the empty commitment is the one that holds all others. -/
def deleteShards (commitmentHash : List UInt8) (f : NodeFiles) : NodeFiles :=
  let kept := fun k : List UInt8 × ℤ => !(commitmentHash.isEmpty || k.1 == commitmentHash)
  { f with shards := f.shards.restrict kept, signatures := f.signatures.restrict kept }

/-- The files a call leaves, whether it returned or not. -/
def leave {α : Type} (x : DiskExec α) (f : NodeFiles) : NodeFiles := (x f).left.getD f

section Steps
variable (A : App) (L : ClusterLibs)

def reader (c : Cluster) (env : Environment) (nodeID : String) (commitmentHash : List UInt8)
    (seen : String → ℤ → Option ℕ) : Reader L.toShardLibs where
  decoder := L.coder.toDecoder
  verify := L.verify
  env := env
  nodeID := nodeID
  answer peer idx :=
    match (seen peer idx).bind fun k => (c.files :: c.past)[k]? with
    | some files =>
        .ok (handleGetShard (encodeToString commitmentHash) (toString idx) (files peer))
    | none => .error (.plain "no answer")

def step (c : Cluster) : Event → Cluster
  | .submit node env d monikers s msg =>
      match admission A L.toPrivacyLibs msg s with
      | .ok sub _ => c.put node (leave (distributeShards L.toShardLibs env d sub.shards
          sub.commitmentHash (getValidatorMonikers monikers)) (c.files node))
      | _ => c
  | .deliver node env sender k =>
      match (c.files sender).outbox[k]? with
      | some (_, upload) => c.put node (serve L.toServerLibs env (c.files node)
          (.ok (marshalUpload upload)))
      | none => c
  | .reconstruct node env nodeID tfheMeta seen =>
      c.put node (leave ((reader L c env nodeID tfheMeta.commitmentHash seen).reconstructCiphertext
        (some tfheMeta)) (c.files node))
  | .delete node commitmentHash => c.put node (deleteShards commitmentHash (c.files node))
  | .lose node commitmentHash index =>
      let f := c.files node
      c.put node { f with shards := f.shards.delete (commitmentHash, index) }

def initial : Cluster := ⟨fun _ => ⟨∅, ∅, []⟩, []⟩

def after (events : List Event) : Cluster := run (step A L) initial events

end Steps

/-! What is on the disks and on its way. -/

/-- The shards on a disk and in an outbox have one property, the signatures on the disk
another. -/
structure Traced (G T : List UInt8 → ℤ → List UInt8 → Prop) (f : NodeFiles) : Prop where
  shards : ∀ c i data, f.shards.get (c, i) = some data → G c i data
  signatures : ∀ c i sig, f.signatures.get (c, i) = some sig → T c i sig
  outbox : ∀ e ∈ f.outbox, ∃ c sr root proof key sig,
    e.2 = shardUpload c sr root proof key sig ∧
      (0 ≤ sr.index ∧ sr.index < erasureTotalShards) ∧ G c sr.index sr.data

section Calls
variable {G T : List UInt8 → ℤ → List UInt8 → Prop} {env : Environment} {d : ShardDistributor}
  {L : ShardLibs} {tree : MerkleTree} {cluster : List String} {commitmentHash : List UInt8}

theorem maintains_read {α : Type} {P : NodeFiles → Prop} {x : DiskExec α}
    (h : GoCall.Keeps id x) : Maintains P x := by
  intro f t ht hf
  have heq : t = f := h f t ht
  exact heq ▸ hf

theorem maintains_ignoreErr {α : Type} {P : NodeFiles → Prop} {x : DiskExec α}
    (h : Maintains P x) : Maintains P (ignoreErr x) := by
  intro f t ht hf
  apply h f t _ hf
  rw [← ht]
  unfold ignoreErr
  cases x f <;> rfl

theorem Traced.set_shard {f : NodeFiles} (h : Traced G T f) {c data : List UInt8} {i : ℤ}
    (hdata : G c i data) : Traced G T { f with shards := f.shards.set (c, i) data } where
  shards := by
    intro c' i' data' hget
    rw [Store.get_set] at hget
    split_ifs at hget with hkey
    · obtain ⟨rfl, rfl⟩ := Prod.mk.inj hkey
      obtain rfl := Option.some.inj hget
      exact hdata
    · exact h.shards c' i' data' hget
  signatures := h.signatures
  outbox := h.outbox

theorem storeShard_traced {c data : List UInt8} {i : ℤ} (h : G c i data) :
    Maintains (Traced G T) (storeShard env c i data) :=
  .bind (maintains_read (.require _ _)) fun _ => .bind (maintains_read (.require _ _)) fun _ =>
    .bind (maintains_read (.require _ _)) fun _ => .bind (maintains_read (.ofExcept _)) fun _ =>
      .modifyStore fun _ hf => hf.set_shard h

theorem storeShardSignature_traced {c sig : List UInt8} {i : ℤ} (h : sig ≠ [] → T c i sig) :
    Maintains (Traced G T) (storeShardSignature env c i sig) := by
  unfold storeShardSignature
  split_ifs with hempty
  · exact maintains_read (.pure _)
  · have hsig := h fun hnil => hempty (List.isEmpty_iff.mpr hnil)
    refine .bind (maintains_read (.ofExcept _)) fun _ => .modifyStore fun f hf => ?_
    refine ⟨hf.shards, fun c' i' sig' hget => ?_, hf.outbox⟩
    rw [Store.get_set] at hget
    split_ifs at hget with hkey
    · obtain ⟨rfl, rfl⟩ := Prod.mk.inj hkey
      obtain rfl := Option.some.inj hget
      exact hsig
    · exact hf.signatures c' i' sig' hget

theorem sendShard_traced {assigned : List String} {upload : ShardUpload} {c : List UInt8}
    {sr : ShardResult} {root proof key sig : List UInt8}
    (hupload : upload = shardUpload c sr root proof key sig)
    (hindex : 0 ≤ sr.index ∧ sr.index < erasureTotalShards) (hdata : G c sr.index sr.data) :
    Maintains (Traced G T) (sendShard env d assigned upload) := by
  refine .forM (fun peer => maintains_ignoreErr ?_) _
  refine .bind (.modifyStore fun f hf => ⟨hf.shards, hf.signatures, fun e he => ?_⟩) fun _ =>
    maintains_read (.ofExcept _)
  rcases List.mem_append.mp he with he | he
  · exact hf.outbox e he
  · obtain rfl := List.mem_singleton.mp he
    exact ⟨c, sr, root, proof, key, sig, hupload, hindex, hdata⟩

/-- A shard of the submission, with the signature of the node. -/
structure Placeable (G T : List UInt8 → ℤ → List UInt8 → Prop) (L : ShardLibs)
    (d : ShardDistributor) (c : List UInt8) (sr : ShardResult) : Prop where
  index : 0 ≤ sr.index ∧ sr.index < erasureTotalShards
  data : G c sr.index sr.data
  signature : signatureOf L d sr.data ≠ [] → T c sr.index (signatureOf L d sr.data)

theorem placeShard_traced {sr : ShardResult} (h : Placeable G T L d commitmentHash sr) :
    Maintains (Traced G T) (placeShard L env d tree cluster commitmentHash sr) := by
  unfold placeShard
  rw [signShardData_eq]
  refine .bind (maintains_read (.mapErr _ (.ofExcept _))) fun proof => ?_
  refine .bind_read (a := signatureOf L d sr.data) (fun _ => rfl) ?_
  refine .bind (.ite ?_ (maintains_read (.pure _))) fun _ =>
    .bind (sendShard_traced rfl h.index h.data) fun _ => maintains_read (.pure _)
  exact .bind (.mapErr _ (storeShard_traced h.data)) fun _ =>
    .mapErr _ (storeShardSignature_traced h.signature)

theorem placeShards_traced {shards : List ShardResult}
    (h : ∀ sr ∈ shards, Placeable G T L d commitmentHash sr) (nodeMap : Store ℤ (List String)) :
    Maintains (Traced G T) (placeShards L env d tree cluster commitmentHash shards nodeMap) := by
  induction shards generalizing nodeMap with
  | nil => exact maintains_read (.pure _)
  | cons sr rest ih =>
      obtain ⟨hsr, hrest⟩ := List.forall_mem_cons.mp h
      exact .bind (placeShard_traced hsr) fun _ => ih hrest _

/-- A distribution leaves nothing but shards of the submission, however far it gets. -/
theorem distributeShards_traced {shards : List ShardResult} {peerAddrs : List String}
    (h : ∀ sr ∈ shards, Placeable G T L d commitmentHash sr) :
    Maintains (Traced G T) (distributeShards L env d shards commitmentHash peerAddrs) :=
  .bind (maintains_read (.require _ _)) fun _ =>
    .bind (maintains_read (.mapErr _ (.ofExcept _))) fun _ =>
      .bind (placeShards_traced h ∅) fun _ => maintains_read (.pure _)

theorem leave_traced {α : Type} {x : DiskExec α} {f : NodeFiles}
    (hx : Maintains (Traced G T) x) (hf : Traced G T f) : Traced G T (leave x f) := by
  unfold leave
  cases hleft : (x f).left with
  | none => exact hf
  | some t => exact hx f t hleft hf

end Calls

/-! Where a shard and a signature come from. -/

section Origins
variable (L : ClusterLibs) (events : List Event)

/-- The node has run the handler with the message and this distributor. -/
def Submits (node : String) (d : ShardDistributor) (msg : MsgTFHESubmit) : Prop :=
  ∃ env monikers s, Event.submit node env d monikers s msg ∈ events

/-- The shard of a message that would be admitted for its size. -/
structure ShardOf (msg : MsgTFHESubmit) (commitmentHash : List UInt8) (index : ℤ)
    (data : List UInt8) : Prop where
  digest : commitmentOf L.toPrivacyLibs msg = commitmentHash
  large : minCiphertextSize ≤ msg.ciphertext.length
  small : msg.ciphertext.length ≤ maxCiphertextSize
  shard : ∃ shards, split L.toShardLibs msg.ciphertext = .ok shards ∧
    (⟨index, data⟩ : ShardResult) ∈ shards

/-- The shard of some message a node has submitted. -/
def Submitted (commitmentHash : List UInt8) (index : ℤ) (data : List UInt8) : Prop :=
  ∃ node d msg, Submits events node d msg ∧ ShardOf L msg commitmentHash index data

/-- The node's own signature over the shard of a message it has submitted itself. -/
def OwnSignature (node : String) (commitmentHash : List UInt8) (index : ℤ)
    (sig : List UInt8) : Prop :=
  ∃ d msg data, Submits events node d msg ∧ ShardOf L msg commitmentHash index data ∧
    sig = signatureOf L.toShardLibs d data ∧ sig ≠ []

/-- Every disk and every outbox, now and before. -/
def Authentic (c : Cluster) : Prop :=
  ∀ files ∈ c.files :: c.past, ∀ node,
    Traced (Submitted L events) (OwnSignature L events node) (files node)

end Origins

section Invariant
variable {A : App} {L : ClusterLibs} {events : List Event} {c : Cluster}

/-- The pieces of a word of the code have one length, parity included. -/
theorem coder_splitsEvenly {L : ShardLibs} (E : Coder L) : SplitsEvenly L := by
  intro data shards hsplit sr hsr
  have hdata : data ≠ [] := by
    rintro rfl
    cases hsplit
  have hpos : 0 < shardLength data.length := by
    have := List.length_pos_iff.mpr hdata
    show 0 < (data.length + 11) / 12
    omega
  obtain ⟨w, hw, hcode, -⟩ := E.encode_codeword _ _ hpos (evenShards_length data)
  rw [split, if_neg (by rwa [List.isEmpty_iff]), E.split_pads data hdata] at hsplit
  simp only [hw] at hsplit
  obtain rfl := Except.ok.inj hsplit
  obtain ⟨i, rfl⟩ := mem_numbered.mp hsr
  rw [getElem_eq_get]
  exact (E.mds _).letters _ hcode i

theorem ShardOf.length_le {msg : MsgTFHESubmit} {commitmentHash data : List UInt8} {index : ℤ}
    (h : ShardOf L msg commitmentHash index data) : data.length ≤ bodyLimit := by
  obtain ⟨shards, hsplit, hmem⟩ := h.shard
  rw [coder_splitsEvenly L.coder _ _ hsplit _ hmem]
  have hsmall : msg.ciphertext.length ≤ 512 * 1024 := h.small
  show (msg.ciphertext.length + 11) / 12 ≤ 64 * 1024
  omega

theorem Submitted.length_le {commitmentHash data : List UInt8} {index : ℤ}
    (h : Submitted L events commitmentHash index data) : data.length ≤ bodyLimit := by
  obtain ⟨_, _, _, -, hshard⟩ := h
  exact hshard.length_le

/-- A submission places nothing but its own shards. -/
theorem admitted_placeable {node : String} {env : Environment} {d : ShardDistributor}
    {monikers : List String} {s s' : KVStore} {msg : MsgTFHESubmit} {sub : Submission}
    (hevent : Event.submit node env d monikers s msg ∈ events)
    (h : admission A L.toPrivacyLibs msg s = .ok sub s') :
    ∀ sr ∈ sub.shards, Placeable (Submitted L events) (OwnSignature L events node) L.toShardLibs d
      sub.commitmentHash sr := by
  obtain ⟨sender, shards, tree, hadmitted, -, rfl, rfl⟩ := admission_ok.mp h
  intro sr hsr
  have hsubmits : Submits events node d msg := ⟨env, monikers, s, hevent⟩
  have hshard : ShardOf L msg (commitmentOf L.toPrivacyLibs msg) sr.index sr.data :=
    ⟨rfl, hadmitted.large, hadmitted.small, shards, hadmitted.split, hsr⟩
  exact
    { index := (split_wellIndexed _ hadmitted.split).2 sr hsr
      data := ⟨node, d, msg, hsubmits, hshard⟩
      signature := fun hsig => ⟨d, msg, sr.data, hsubmits, hshard, rfl, hsig⟩ }

section Files
variable {G T : List UInt8 → ℤ → List UInt8 → Prop} {f : NodeFiles} {env : Environment}

/-- The upload that is read from a body is the one that was sent, if any can be read. -/
theorem serve_traced (S : ServerLibs) (hf : Traced G T f) {upload : ShardUpload}
    {commitmentHash root proof key sig : List UInt8} {sr : ShardResult}
    (hupload : upload = shardUpload commitmentHash sr root proof key sig)
    (hindex : 0 ≤ sr.index ∧ sr.index < erasureTotalShards)
    (hdata : G commitmentHash sr.index sr.data) :
    Traced G T (serve S env f (.ok (marshalUpload upload))) := by
  rcases serve_cases S env f (.ok (marshalUpload upload)) with
    h | ⟨b, upload', commitment, data, _, _, hbody, haccepts, h⟩
  · rw [h]
    exact hf
  · obtain rfl := Except.ok.inj hbody
    have hhex := shardUpload_hexadecimal commitmentHash root proof key sig hindex
    rw [← hupload] at hhex
    have hsame : upload' = upload := by
      have hparsed := haccepts.parsed
      by_cases hshort : (marshalUpload upload).length ≤ bodyLimit
      · rw [List.take_of_length_le hshort, S.unmarshal_marshal upload hhex] at hparsed
        exact (Option.some.inj hparsed).symm
      · rw [S.unmarshal_truncated upload hhex _ (not_le.mp hshort)] at hparsed
        cases hparsed
    subst hsame
    subst hupload
    have hcommitment := haccepts.commitmentHex
    have hbytes := haccepts.dataHex
    simp only [shardUpload, decodeString_encodeToString, Option.some.injEq] at hcommitment hbytes
    subst hcommitment hbytes
    rw [h]
    exact hf.set_shard hdata

/-- What is fetched from a disk: the shard, as far as it is read, and its signature. -/
theorem fetch_accepts {commitmentHash data sig : List UInt8} {i : ℤ}
    (hi : 0 ≤ i ∧ i < erasureTotalShards) :
    fetchShardFromPeer (.ok (handleGetShard (encodeToString commitmentHash) (toString i) f)) =
        .ok (data, sig) ↔
      ∃ stored, f.shards.get (commitmentHash, i) = some stored ∧ stored.take bodyLimit = data ∧
        (f.signatures.get (commitmentHash, i)).getD [] = sig := by
  simp only [handleGetShard, decodeString_encodeToString, atoi_toString (isInt_index hi)]
  cases hstored : f.shards.get (commitmentHash, i) with
  | none => simp [httpError, fetchShardFromPeer]
  | some stored =>
      have hheader : (decodeString (((f.signatures.get (commitmentHash, i)).map
          encodeToString).getD "")).getD [] = (f.signatures.get (commitmentHash, i)).getD [] := by
        cases f.signatures.get (commitmentHash, i) with
        | none => rfl
        | some sig => simp [decodeString_encodeToString]
      simp [fetchShardFromPeer, hheader]

theorem accepted_iff {K : ShardLibs} {R : Reader K} {tfheMeta : TFHEShardMeta} {i : ℤ}
    {peer : String} {data : List UInt8} :
    accepted R tfheMeta i peer = some data ↔ Honest R tfheMeta peer ⟨i, data⟩ := by
  constructor
  · intro h
    unfold accepted at h
    split_ifs at h with hself
    split at h
    · cases h
    · rename_i data' sig hfetch
      split_ifs at h with hpass
      obtain rfl := Option.some.inj h
      exact ⟨hself, sig, hfetch, hpass⟩
  · exact fun h => h.accepted

theorem fetchShard_some {K : ShardLibs} {R : Reader K} {tfheMeta : TFHEShardMeta} {i : ℤ}
    {data : List UInt8} (h : R.fetchShard tfheMeta i (listed tfheMeta i) = some data) :
    ∃ peer sig, fetchShardFromPeer (R.answer peer i) = .ok (data, sig) := by
  rw [fetchShard_eq] at h
  obtain ⟨peer, -, haccepted⟩ := List.exists_of_findSome?_eq_some h
  obtain ⟨-, sig, hfetch, -⟩ := accepted_iff.mp haccepted
  exact ⟨peer, sig, hfetch⟩

/-- A node that reads keeps what is fetched, and nothing else. -/
theorem collectRemote_traced {K : ShardLibs} {R : Reader K} {tfheMeta : TFHEShardMeta}
    (hfetch : ∀ peer (i : ℤ) data sig, 0 ≤ i ∧ i < erasureTotalShards →
      fetchShardFromPeer (R.answer peer i) = .ok (data, sig) → G tfheMeta.commitmentHash i data)
    (held : List ℤ) {idxs : List ℕ} (hidxs : ∀ i ∈ idxs, i < erasureTotalShards)
    (collected : List ShardResult) :
    Maintains (Traced G T) (R.collectRemote tfheMeta held idxs collected) := by
  induction idxs generalizing collected with
  | nil => exact maintains_read (.pure _)
  | cons i rest ih =>
      obtain ⟨hi, hrest⟩ := List.forall_mem_cons.mp hidxs
      unfold Reader.collectRemote
      refine .ite (maintains_read (.pure _)) (.ite (ih hrest _) ?_)
      cases hsome : R.fetchShard tfheMeta i (listed tfheMeta i) with
      | none => exact ih hrest _
      | some data =>
          obtain ⟨peer, sig, hpeer⟩ := fetchShard_some hsome
          have hdata := hfetch peer i data sig (by omega) hpeer
          exact .bind (maintains_ignoreErr (storeShard_traced hdata)) fun _ => ih hrest _

theorem reconstructCiphertext_traced {K : ShardLibs} {R : Reader K} {tfheMeta : TFHEShardMeta}
    (hfetch : ∀ peer (i : ℤ) data sig, 0 ≤ i ∧ i < erasureTotalShards →
      fetchShardFromPeer (R.answer peer i) = .ok (data, sig) → G tfheMeta.commitmentHash i data) :
    Maintains (Traced G T) (R.reconstructCiphertext (some tfheMeta)) := by
  refine .bind (.bind (maintains_read (.gets _)) fun own => .ite ?_ (maintains_read (.pure _)))
    fun _ => .bind (maintains_read (.require _ _)) fun _ => maintains_read (.ofExcept _)
  exact collectRemote_traced hfetch _ (fun i hi => List.mem_range.mp hi) own

theorem get_of_restrict {V : Type} {s : Store (List UInt8 × ℤ) V} {p : List UInt8 × ℤ → Bool}
    {k : List UInt8 × ℤ} {v : V} (h : (s.restrict p).get k = some v) : s.get k = some v := by
  rw [Store.get_restrict] at h
  split_ifs at h
  exact h

/-- Nothing is found that was not there. -/
theorem Traced.sub {f' : NodeFiles} (hf : Traced G T f)
    (hshards : ∀ k v, f'.shards.get k = some v → f.shards.get k = some v)
    (hsignatures : ∀ k v, f'.signatures.get k = some v → f.signatures.get k = some v)
    (houtbox : f'.outbox = f.outbox) : Traced G T f' where
  shards c i data h := hf.shards c i data (hshards _ _ h)
  signatures c i sig h := hf.signatures c i sig (hsignatures _ _ h)
  outbox e he := hf.outbox e (houtbox ▸ he)

end Files

theorem Authentic.put {node : String} {f : NodeFiles} (hc : Authentic L events c)
    (hf : Traced (Submitted L events) (OwnSignature L events node) f) :
    Authentic L events (c.put node f) := by
  intro files hfiles
  rcases List.mem_cons.mp hfiles with rfl | hpast
  · intro node'
    rcases eq_or_ne node' node with rfl | hne
    · rw [Cluster.put_self]
      exact hf
    · rw [Cluster.put_of_ne hne]
      exact hc c.files List.mem_cons_self node'
  · exact hc files hpast

/-- What is fetched comes from some disk the peer has or had. -/
theorem answer_fetched {env : Environment} {nodeID peer : String}
    {commitmentHash data sig : List UInt8} {seen : String → ℤ → Option ℕ} {i : ℤ}
    (hi : 0 ≤ i ∧ i < erasureTotalShards) :
    fetchShardFromPeer ((reader L c env nodeID commitmentHash seen).answer peer i) =
        .ok (data, sig) ↔
      ∃ k files, seen peer i = some k ∧ (c.files :: c.past)[k]? = some files ∧
        ∃ stored, (files peer).shards.get (commitmentHash, i) = some stored ∧
          stored.take bodyLimit = data ∧
          ((files peer).signatures.get (commitmentHash, i)).getD [] = sig := by
  simp only [reader]
  split
  · rename_i files hfiles
    obtain ⟨k, hk, hfiles⟩ := Option.bind_eq_some_iff.mp hfiles
    rw [fetch_accepts hi]
    constructor
    · exact fun h => ⟨k, files, hk, hfiles, h⟩
    · rintro ⟨k', files', hk', hfiles', h⟩
      obtain rfl := Option.some.inj (hk.symm.trans hk')
      obtain rfl := Option.some.inj (hfiles.symm.trans hfiles')
      exact h
  · rename_i hnone
    constructor
    · intro h
      cases h
    · rintro ⟨k, files, hk, hfiles, -⟩
      rw [hk] at hnone
      cases hfiles.symm.trans hnone

/-- What a node is sent by its peers. -/
theorem Authentic.fetched (hc : Authentic L events c) {env : Environment} {nodeID peer : String}
    {commitmentHash data sig : List UInt8} {seen : String → ℤ → Option ℕ} {i : ℤ}
    (hi : 0 ≤ i ∧ i < erasureTotalShards)
    (h : fetchShardFromPeer ((reader L c env nodeID commitmentHash seen).answer peer i) =
      .ok (data, sig)) : Submitted L events commitmentHash i data := by
  obtain ⟨k, files, -, hfiles, stored, hstored, rfl, -⟩ := (answer_fetched hi).mp h
  have hshard := (hc files (List.mem_of_getElem? hfiles) peer).shards _ _ _ hstored
  rwa [List.take_of_length_le hshard.length_le]

/-- Whatever happens next, every file is still traced to a submission. -/
theorem step_authentic {e : Event} (he : e ∈ events) (hc : Authentic L events c) :
    Authentic L events (step A L c e) := by
  have hnow : ∀ node, Traced (Submitted L events) (OwnSignature L events node) (c.files node) :=
    hc c.files List.mem_cons_self
  cases e with
  | submit node env d monikers s msg =>
      dsimp only [step]
      split
      · rename_i sub s' hadmission
        exact hc.put (leave_traced
          (distributeShards_traced (admitted_placeable he hadmission)) (hnow node))
      · exact hc
  | deliver node env sender k =>
      dsimp only [step]
      split
      · rename_i peer upload hsent
        obtain ⟨_, sr, _, _, _, _, hupload, hindex, hdata⟩ :=
          (hnow sender).outbox _ (List.mem_of_getElem? hsent)
        exact hc.put (serve_traced L.toServerLibs (hnow node) hupload hindex hdata)
      · exact hc
  | reconstruct node env nodeID tfheMeta seen =>
      exact hc.put (leave_traced
        (reconstructCiphertext_traced fun peer i data sig hi h => hc.fetched hi h) (hnow node))
  | delete node commitmentHash =>
      exact hc.put ((hnow node).sub (fun _ _ => get_of_restrict) (fun _ _ => get_of_restrict) rfl)
  | lose node commitmentHash index =>
      refine hc.put ((hnow node).sub (fun k v h => ?_) (fun _ _ h => h) rfl)
      rw [Store.get_delete] at h
      split_ifs at h
      exact h

theorem after_authentic (A : App) (L : ClusterLibs) (events : List Event) :
    Authentic L events (after A L events) := by
  refine run_invariant (Authentic L events) (· ∈ events) (fun _ _ => step_authentic) events initial
    ?_ fun _ he => he
  intro files hfiles node
  obtain rfl := List.mem_singleton.mp hfiles
  exact ⟨fun _ _ _ h => (by cases h), fun _ _ _ h => (by cases h), fun _ h => (by cases h)⟩

end Invariant

/-! Reading back. -/

section Reading
variable (L : ClusterLibs) (c : Cluster) (env : Environment) (nodeID : String)
  (tfheMeta : TFHEShardMeta) (seen : String → ℤ → Option ℕ) (f : NodeFiles)

/-- A peer answers from a disk on which it has the shard, and no signature that is wrong. -/
def Sends (peer : String) (i : ℕ) : Prop :=
  ∃ k files data, seen peer i = some k ∧ (c.files :: c.past)[k]? = some files ∧
    (files peer).shards.get (tfheMeta.commitmentHash, (i : ℤ)) = some data ∧
    (reader L c env nodeID tfheMeta.commitmentHash seen).passes tfheMeta data
      (((files peer).signatures.get (tfheMeta.commitmentHash, (i : ℤ))).getD []) = true

/-- The shard is on the disk of the node, or one of the listed peers sends it. -/
def Within (i : ℕ) : Prop :=
  (∃ data, f.shards.get (tfheMeta.commitmentHash, (i : ℤ)) = some data) ∨
    ∃ peer ∈ listed tfheMeta i, peer ≠ nodeID ∧ Sends L c env nodeID tfheMeta seen peer i

end Reading

section Reading
variable {L : ClusterLibs} {events : List Event} {c : Cluster} {env : Environment}
  {nodeID node : String} {tfheMeta : TFHEShardMeta} {seen : String → ℤ → Option ℕ}

/-- The shards in a list, counted by their indices. -/
theorem le_length_iff {results : List ShardResult} (h : Numbered results) {P : ℕ → Prop}
    (hP : ∀ i < erasureTotalShards, (∃ sr ∈ results, sr.index = (i : ℤ)) ↔ P i) (n : ℕ) :
    n ≤ results.length ↔
      ∃ held : Finset ℕ, n ≤ held.card ∧ ∀ i ∈ held, i < erasureTotalShards ∧ P i := by
  constructor
  · intro hn
    have hnodup : (results.map fun sr => sr.index.toNat).Nodup := by
      have hcomp : (results.map fun sr => sr.index.toNat) =
          (results.map ShardResult.index).map Int.toNat := by rw [List.map_map]; rfl
      rw [hcomp]
      refine h.nodup.map_on fun i hi j hj heq => ?_
      obtain ⟨sr, hsr, rfl⟩ := List.mem_map.mp hi
      obtain ⟨sr', hsr', rfl⟩ := List.mem_map.mp hj
      have := h.range sr hsr
      have := h.range sr' hsr'
      omega
    refine ⟨(results.map fun sr => sr.index.toNat).toFinset, ?_, fun i hi => ?_⟩
    · rwa [List.toFinset_card_of_nodup hnodup, List.length_map]
    · obtain ⟨sr, hsr, rfl⟩ := List.mem_map.mp (List.mem_toFinset.mp hi)
      have hrange := h.range sr hsr
      have hlt : sr.index.toNat < erasureTotalShards := by omega
      exact ⟨hlt, (hP _ hlt).mp ⟨sr, hsr, by omega⟩⟩
  · rintro ⟨held, hn, hheld⟩
    have hsub : held.image Int.ofNat ⊆ (results.map ShardResult.index).toFinset := by
      intro k hk
      obtain ⟨i, hi, rfl⟩ := Finset.mem_image.mp hk
      obtain ⟨hlt, hi⟩ := hheld i hi
      obtain ⟨sr, hsr, hindex⟩ := (hP i hlt).mpr hi
      exact List.mem_toFinset.mpr (List.mem_map.mpr ⟨sr, hsr, hindex⟩)
    have hcard := (Finset.card_le_card hsub).trans (List.toFinset_card_le _)
    rw [Finset.card_image_of_injective _ Int.ofNat_injective, List.length_map] at hcard
    exact hn.trans hcard

/-- What is accepted from a peer of the cluster. -/
theorem Authentic.accepted_some (hc : Authentic L events c) {peer : String} {i : ℕ}
    (hi : i < erasureTotalShards) :
    (∃ data, accepted (reader L c env nodeID tfheMeta.commitmentHash seen) tfheMeta i peer =
      some data) ↔ peer ≠ nodeID ∧ Sends L c env nodeID tfheMeta seen peer i := by
  simp only [accepted_iff, Honest, answer_fetched (show 0 ≤ (i : ℤ) ∧ _ by omega)]
  constructor
  · rintro ⟨data, hself, sig, ⟨k, files, hk, hfiles, stored, hstored, rfl, rfl⟩, hpass⟩
    have hshard := (hc files (List.mem_of_getElem? hfiles) peer).shards _ _ _ hstored
    rw [List.take_of_length_le hshard.length_le] at hpass
    exact ⟨hself, k, files, stored, hk, hfiles, hstored, hpass⟩
  · rintro ⟨hself, k, files, data, hk, hfiles, hstored, hpass⟩
    have hshard := (hc files (List.mem_of_getElem? hfiles) peer).shards _ _ _ hstored
    exact ⟨data, hself, _, ⟨k, files, hk, hfiles, data, hstored,
      List.take_of_length_le hshard.length_le, rfl⟩, hpass⟩

theorem mem_offers {K : ShardLibs} {R : Reader K} {f : NodeFiles} {sr : ShardResult} :
    sr ∈ offers R tfheMeta f ↔ ∃ i < erasureTotalShards, ownShard tfheMeta f i = some sr ∨
      peerShard R tfheMeta ((ownShards tfheMeta f).map ShardResult.index) i = some sr := by
  simp only [offers, ownShards, List.mem_append, List.mem_filterMap, List.mem_range, ← exists_or,
    ← and_or_left]

/-- Everything on offer was submitted. -/
theorem Authentic.offered (hc : Authentic L events c) {sr : ShardResult}
    (h : sr ∈ offers (reader L c env nodeID tfheMeta.commitmentHash seen) tfheMeta
      (c.files node)) : Submitted L events tfheMeta.commitmentHash sr.index sr.data := by
  obtain ⟨i, hi, hown | hpeer⟩ := mem_offers.mp h
  · obtain ⟨data, hget, rfl⟩ := Option.map_eq_some_iff.mp hown
    exact (hc c.files List.mem_cons_self node).shards _ _ _ hget
  · unfold peerShard at hpeer
    split_ifs at hpeer
    obtain ⟨data, hfind, rfl⟩ := Option.map_eq_some_iff.mp hpeer
    obtain ⟨peer, -, haccepted⟩ := List.exists_of_findSome?_eq_some hfind
    obtain ⟨-, sig, hfetch, -⟩ := accepted_iff.mp haccepted
    exact hc.fetched (i := i) (by omega) hfetch

theorem ownShard_some {f : NodeFiles} {i : ℕ} : (∃ sr, ownShard tfheMeta f i = some sr) ↔
    ∃ data, f.shards.get (tfheMeta.commitmentHash, (i : ℤ)) = some data := by
  simp only [ownShard, Option.map_eq_some_iff]
  constructor
  · rintro ⟨_, data, hdata, -⟩
    exact ⟨data, hdata⟩
  · rintro ⟨data, hdata⟩
    exact ⟨_, data, hdata, rfl⟩

/-- What is held is on the disk. -/
theorem own_of_held {f : NodeFiles} {i : ℕ}
    (h : (i : ℤ) ∈ (ownShards tfheMeta f).map ShardResult.index) :
    ∃ sr, ownShard tfheMeta f i = some sr := by
  obtain ⟨sr, hsr, hindex⟩ := List.mem_map.mp h
  obtain ⟨j, -, hj⟩ := List.mem_filterMap.mp hsr
  have hij : (i : ℤ) = j := hindex.symm.trans (ownShard_index hj)
  obtain rfl : i = j := by omega
  exact ⟨sr, hj⟩

/-- A shard is on offer if it is within reach. -/
theorem Authentic.offered_iff (hc : Authentic L events c) {i : ℕ} (hi : i < erasureTotalShards) :
    (∃ sr ∈ offers (reader L c env nodeID tfheMeta.commitmentHash seen) tfheMeta (c.files node),
      sr.index = (i : ℤ)) ↔ Within L c env nodeID tfheMeta seen (c.files node) i := by
  have hpeers : (∃ peer ∈ listed tfheMeta i, ∃ data, accepted
      (reader L c env nodeID tfheMeta.commitmentHash seen) tfheMeta i peer = some data) ↔
      ∃ peer ∈ listed tfheMeta i, peer ≠ nodeID ∧ Sends L c env nodeID tfheMeta seen peer i := by
    simp only [hc.accepted_some hi]
  rw [Within, ← hpeers, ← ownShard_some]
  constructor
  · rintro ⟨sr, hsr, hindex⟩
    obtain ⟨j, -, hown | hpeer⟩ := mem_offers.mp hsr
    · have hij : (j : ℤ) = i := (ownShard_index hown).symm.trans hindex
      obtain rfl : j = i := by omega
      exact .inl ⟨sr, hown⟩
    · have hij : (j : ℤ) = i := (peerShard_index hpeer).1.symm.trans hindex
      obtain rfl : j = i := by omega
      unfold peerShard at hpeer
      split_ifs at hpeer
      obtain ⟨data, hfind, -⟩ := Option.map_eq_some_iff.mp hpeer
      obtain ⟨peer, hlisted, haccepted⟩ := List.exists_of_findSome?_eq_some hfind
      exact .inr ⟨peer, hlisted, data, haccepted⟩
  · intro h
    by_cases hown : ∃ sr, ownShard tfheMeta (c.files node) i = some sr
    · obtain ⟨sr, hsr⟩ := hown
      exact ⟨sr, mem_offers.mpr ⟨i, hi, .inl hsr⟩, ownShard_index hsr⟩
    · obtain ⟨peer, hlisted, data, hdata⟩ := h.resolve_left hown
      have hfind : ((listed tfheMeta i).findSome? (accepted
          (reader L c env nodeID tfheMeta.commitmentHash seen) tfheMeta i)).isSome = true :=
        List.findSome?_isSome_iff.mpr ⟨peer, hlisted, by rw [hdata]; rfl⟩
      obtain ⟨data, hdata⟩ := Option.isSome_iff_exists.mp hfind
      refine ⟨⟨i, data⟩, mem_offers.mpr ⟨i, hi, .inr ?_⟩, rfl⟩
      rw [peerShard, if_neg fun hheld => hown (own_of_held hheld), hdata]
      rfl

/-- What can be read back under the digest of a ciphertext from disks like that. -/
theorem Authentic.reads_back (hc : Authentic L events c) {ciphertext : List UInt8}
    (hne : ciphertext ≠ [])
    (hdigest : tfheMeta.commitmentHash = (L.sum256 ciphertext).toList)
    (hlen : tfheMeta.originalLen = ciphertext.length)
    (hcollision : ∀ node d msg, Submits events node d msg →
      L.sum256 msg.ciphertext = L.sum256 ciphertext → msg.ciphertext = ciphertext)
    {bytes : List UInt8} :
    (∃ t, (reader L c env nodeID tfheMeta.commitmentHash seen).reconstructCiphertext
        (some tfheMeta) (c.files node) = .ok bytes t) ↔
      bytes = ciphertext ∧ ∃ held : Finset ℕ, erasureDataShards ≤ held.card ∧
        ∀ i ∈ held, i < erasureTotalShards ∧
          Within L c env nodeID tfheMeta seen (c.files node) i := by
  obtain ⟨w, -, -, hsplit⟩ := split_returns L.coder hne
  have hgenuine : ∀ sr ∈ chosen (reader L c env nodeID tfheMeta.commitmentHash seen) tfheMeta
      (c.files node), sr ∈ numbered w := by
    intro sr hsr
    obtain ⟨submitter, d, msg, hsubmits, hshard⟩ := hc.offered (List.mem_of_mem_take hsr)
    have hsum : L.sum256 msg.ciphertext = L.sum256 ciphertext :=
      Vector.toList_inj.mp (hshard.digest.trans hdigest)
    obtain ⟨shards, hshards, hmem⟩ := hshard.shard
    rw [hcollision _ _ _ hsubmits hsum, hsplit] at hshards
    obtain rfl := Except.ok.inj hshards
    exact hmem
  have hpos : 0 < tfheMeta.originalLen := by
    rw [hlen]
    exact Int.natCast_pos.mpr (List.length_pos_iff.mpr hne)
  have hmsg : split L.toShardLibs (MsgTFHESubmit.mk "" ciphertext).ciphertext =
      .ok (numbered w) := hsplit
  obtain ⟨⟨v, hv, hthrough, hbegin⟩, hunique⟩ :=
    genuine_codeword (L := L.toPrivacyLibs) hmsg hgenuine
  have htake : ∀ v, ciphertext <+: dataOf v →
      (dataOf v).take tfheMeta.originalLen.toNat = ciphertext := by
    intro v hprefix
    rw [hlen, Int.toNat_natCast]
    exact (List.prefix_iff_eq_take.mp hprefix).symm
  rw [reconstructCiphertext_codeword _ _ _ hpos, ← chosen_length,
    ← le_length_iff offers_numbered fun i hi => hc.offered_iff hi]
  have hcount : erasureDataShards ≤ (chosen (reader L c env nodeID tfheMeta.commitmentHash seen)
      tfheMeta (c.files node)).length ↔ erasureDataShards ≤ (offers
        (reader L c env nodeID tfheMeta.commitmentHash seen) tfheMeta (c.files node)).length := by
    rw [chosen, List.length_take]
    omega
  rw [hcount]
  constructor
  · rintro ⟨henough, w', hw', hthrough', rfl⟩
    exact ⟨htake _ (hunique (chosen_length.mp (hcount.mpr henough)) w' hw' hthrough'), henough⟩
  · rintro ⟨rfl, henough⟩
    exact ⟨henough, v, hv, hthrough, htake v hbegin⟩

end Reading

/-! A node that is alone and keeps everything. -/

section Samples
open Devnet SubmitAgreement PlacedShards

noncomputable def fieldCluster : ClusterLibs where
  toShardLibs := fieldLibs
  marshal := sampleLibs.marshal
  marshal_inj := sampleLibs.marshal_inj
  verify _ _ _ := true
  unmarshalUpload := readUpload
  unmarshal_marshal := readUpload_marshal
  unmarshal_truncated := readUpload_truncated
  coder := fieldCoder

/-- The only node runs the handler. -/
def loneSubmission (s : KVStore) (msg : MsgTFHESubmit) : Event :=
  .submit "alpha" calmEnv ⟨"alpha", none⟩ [] s msg

theorem alone_assigned (L : ShardLibs) (commitmentHash : List UInt8) (index : ℤ) :
    assignedNodes L (clusterNodes "alpha" (getValidatorMonikers []) "") commitmentHash index =
      ["alpha"] := by
  have hcluster : clusterNodes "alpha" (getValidatorMonikers []) "" = ["alpha"] := by
    decide +kernel
  rw [hcluster, assignedNodes]
  simp [replicationFactor, Nat.mod_one]

theorem exists_shard {L : ShardLibs} {data : List UInt8} {shards : List ShardResult}
    (hsplit : split L data = .ok shards) {i : ℕ} (hi : i < erasureTotalShards) :
    ∃ sr ∈ shards, sr.index = (i : ℤ) := by
  have hindex : (i : ℤ) ∈ shards.map ShardResult.index := by
    rw [split_indices _ hsplit]
    exact List.mem_map.mpr ⟨i, List.mem_range.mpr hi, rfl⟩
  exact List.mem_map.mp hindex

theorem submit_files {A : App} {L : ClusterLibs} {c : Cluster} {node : String}
    {env : Environment} {d : ShardDistributor} {monikers : List String} {s s' : KVStore}
    {msg : MsgTFHESubmit} {sub : Submission} {m : TFHEShardMeta} {t : NodeFiles}
    (hadmission : admission A L.toPrivacyLibs msg s = .ok sub s')
    (ht : distributeShards L.toShardLibs env d sub.shards sub.commitmentHash
      (getValidatorMonikers monikers) (c.files node) = .ok m t) :
    (step A L c (.submit node env d monikers s msg)).files node = t := by
  simp only [step, hadmission, Cluster.put_self, leave, ht]
  rfl

/-- Its disk takes all shards. -/
theorem lone_distributes {A : App} {L : ClusterLibs} {s : KVStore} {msg : MsgTFHESubmit}
    {sender : AccAddress} {shards : List ShardResult}
    (hadmitted : Admitted A L.toPrivacyLibs msg s sender shards) :
    Distributes L.toShardLibs calmEnv ⟨"alpha", none⟩ shards (commitmentOf L.toPrivacyLibs msg)
      (getValidatorMonikers []) := by
  intro sr hsr _
  refine ⟨?_, rfl, fun hsig => absurd rfl hsig⟩
  have hlarge : 1024 ≤ msg.ciphertext.length := hadmitted.large
  rw [← List.length_pos_iff, coder_splitsEvenly L.coder _ _ hadmitted.split sr hsr]
  show 0 < (msg.ciphertext.length + 11) / 12
  omega

/-- All shards end up on the disk of the node. -/
theorem loneSubmission_stored {A : App} {L : ClusterLibs} {s : KVStore} {msg : MsgTFHESubmit}
    {sender : AccAddress} {shards : List ShardResult}
    (hadmitted : Admitted A L.toPrivacyLibs msg s sender shards) {sr : ShardResult}
    (hsr : sr ∈ shards) :
    ((after A L [loneSubmission s msg]).files "alpha").shards.get
      (commitmentOf L.toPrivacyLibs msg, sr.index) = some sr.data := by
  have hwell := split_wellIndexed L.toShardLibs hadmitted.split
  obtain ⟨tree, htree, -⟩ := buildMerkleTree_ok L.toShardLibs hwell
  have hadmission := admission_ok.mpr ⟨sender, shards, tree, hadmitted, htree, rfl, rfl⟩
  obtain ⟨m, t, ht⟩ := (distributeShards_returns (f := initial.files "alpha")
    (commitmentOf_ne_nil _ _) hwell).mpr (lone_distributes hadmitted)
  have hfiles : (after A L [loneSubmission s msg]).files "alpha" = t := submit_files hadmission ht
  have hplaced := distributeShards_files (split_nodup _ hadmitted.split) htree ht
  have hname : ShardDistributor.resolvedNodeID calmEnv ⟨"alpha", none⟩ = "alpha" :=
    if_pos (by decide)
  have hpeers : calmEnv.tfhePeers = "" := rfl
  rw [hfiles, hplaced.own sr hsr, hname, hpeers, alone_assigned]
  exact if_pos (List.mem_singleton_self _)

/-- Nothing but this message was submitted. -/
theorem loneSubmission_submits {s : KVStore} {msg msg' : MsgTFHESubmit} {node : String}
    {d : ShardDistributor} (h : Submits [loneSubmission s msg] node d msg') : msg' = msg := by
  obtain ⟨env, monikers, s', hmem⟩ := h
  cases List.mem_singleton.mp hmem
  rfl

def loneMeta (L : ClusterLibs) (msg : MsgTFHESubmit) : TFHEShardMeta :=
  ⟨commitmentOf L.toPrivacyLibs msg, msg.ciphertext.length, ∅, [], []⟩

theorem loneMeta_within {A : App} {L : ClusterLibs} {s : KVStore} {msg : MsgTFHESubmit}
    {sender : AccAddress} {shards : List ShardResult}
    (hadmitted : Admitted A L.toPrivacyLibs msg s sender shards) {i : ℕ}
    (hi : i < erasureTotalShards) :
    Within L (after A L [loneSubmission s msg]) calmEnv "alpha" (loneMeta L msg) (fun _ _ => none)
      ((after A L [loneSubmission s msg]).files "alpha") i := by
  obtain ⟨sr, hsr, hindex⟩ := exists_shard hadmitted.split hi
  rw [Within, ← hindex]
  exact .inl ⟨sr.data, loneSubmission_stored hadmitted hsr⟩

theorem sampleMsg_ne : sampleMsg.ciphertext ≠ [] := by
  rw [← List.length_pos_iff, sampleMsg_length]
  decide

theorem sampleMsg_cluster :
    ∃ shards, Admitted devnet fieldCluster.toPrivacyLibs sampleMsg ∅ alice shards := by
  obtain ⟨w, -, -, hsplit⟩ := split_returns fieldCluster.coder sampleMsg_ne
  exact ⟨numbered w, sampleMsg_admitted.address, sampleMsg_admitted.large,
    sampleMsg_admitted.small, sampleMsg_admitted.quota, hsplit⟩

end Samples

end Zytherion.ShardCluster
