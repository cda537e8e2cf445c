import Zytherion.TfheSubmit

/-!
# What a distribution leaves behind

A distribution that returns has written the shards assigned to the node itself to
its disk, and has put one upload for each shard and each other assigned node into
its outbox. It touched no file of another commitment.

A node holds a shard if its disk does, or if it answered the upload.
-/
namespace Zytherion.PlacedShards

open GoCall KeyedStore Application ByteStrings Shards ShardPlacement TfheSubmit

section Effects
variable {L : ShardLibs} {env : Environment} {d : ShardDistributor} {f t : NodeFiles}
  {tree : MerkleTree} {cluster : List String} {commitmentHash : List UInt8} {sr : ShardResult}

/-- The upload built for a shard, the same for all its peers. -/
def uploadOf (L : ShardLibs) (d : ShardDistributor) (tree : MerkleTree)
    (commitmentHash : List UInt8) (sr : ShardResult) : ShardUpload :=
  shardUpload commitmentHash sr tree.rootBytes
    (serializeProof (tree.path tree.depth sr.index.toNat)) d.proposerPubkey
    (signatureOf L d sr.data)

theorem sendShardToPeer_outbox (peerAddr : String) (upload : ShardUpload) :
    ignoreErr (sendShardToPeer env peerAddr upload) f =
      .ok () { f with outbox := f.outbox ++ [(peerAddr, upload)] } := by
  have hsend : sendShardToPeer env peerAddr upload f = ofExcept (env.respond peerAddr upload)
    { f with outbox := f.outbox ++ [(peerAddr, upload)] } := rfl
  rw [ignoreErr, hsend]
  cases env.respond peerAddr upload <;> rfl

theorem sendAll_outbox (peers : List String) (upload : ShardUpload) :
    peers.forM (fun peerAddr => ignoreErr (sendShardToPeer env peerAddr upload)) f =
      .ok () { f with outbox := f.outbox ++ peers.map fun peerAddr => (peerAddr, upload) } := by
  induction peers generalizing f with
  | nil => rw [List.map_nil, List.append_nil]; rfl
  | cons peer peers ih =>
      refine (bind_ok _ _).mpr ⟨(), _, sendShardToPeer_outbox peer upload, ?_⟩
      rw [ih, List.map_cons, List.append_assoc, List.singleton_append]

theorem keepShard_files {assigned : List String} {sig : List UInt8} {u : Unit}
    (h : keepShard env d assigned commitmentHash sr sig f = .ok u t) :
    t.outbox = f.outbox ∧ t.shards = if d.resolvedNodeID env ∈ assigned then
      f.shards.set (commitmentHash, sr.index) sr.data else f.shards := by
  unfold keepShard at h
  split_ifs at h with hassigned
  · simp only [bind_ok, mapErr_ok, storeShard, require_ok, ofExcept_ok, modifyStore_ok] at h
    obtain ⟨_, _, ⟨_, _, ⟨-, rfl⟩, _, _, ⟨-, rfl⟩, _, _, ⟨-, rfl⟩, _, _, ⟨-, rfl⟩, rfl⟩, hsig⟩ := h
    unfold storeShardSignature at hsig
    split_ifs at hsig
    · obtain ⟨-, rfl⟩ := (pure_ok _ _).mp hsig
      exact ⟨rfl, (if_pos hassigned).symm⟩
    · simp only [bind_ok, ofExcept_ok, modifyStore_ok] at hsig
      obtain ⟨_, _, ⟨-, rfl⟩, rfl⟩ := hsig
      exact ⟨rfl, (if_pos hassigned).symm⟩
  · obtain ⟨-, rfl⟩ := (pure_ok _ _).mp h
    exact ⟨rfl, (if_neg hassigned).symm⟩

/-- One round: the node's own copy, and the uploads to the others. -/
theorem placeShard_files {assigned : List String}
    (h : placeShard L env d tree cluster commitmentHash sr f = .ok assigned t) :
    t.outbox = f.outbox ++ ((assignedNodes L cluster commitmentHash sr.index).filter
        (· ≠ d.resolvedNodeID env)).map (fun peer => (peer, uploadOf L d tree commitmentHash sr)) ∧
      t.shards = if d.resolvedNodeID env ∈ assignedNodes L cluster commitmentHash sr.index then
        f.shards.set (commitmentHash, sr.index) sr.data else f.shards := by
  simp only [placeShard, bind_ok, mapErr_ok, ofExcept_ok, signShardData_eq, Except.ok.injEq,
    pure_ok, sendShard, sendAll_outbox, Outcome.ok.injEq] at h
  obtain ⟨path, _, ⟨hpath, rfl⟩, _, _, ⟨rfl, rfl⟩, _, m, hkeep, _, _, ⟨-, rfl⟩, -, rfl⟩ := h
  obtain ⟨houtbox, hshards⟩ := keepShard_files hkeep
  have hpath' : path = tree.path tree.depth sr.index.toNat := by
    unfold MerkleTree.proofForShard at hpath
    split_ifs at hpath
    exact (Except.ok.inj hpath).symm
  rw [uploadOf, ← hpath', ← houtbox]
  exact ⟨rfl, hshards⟩

/-- The files after the shards were placed, compared with those before. -/
structure Placed (L : ShardLibs) (env : Environment) (d : ShardDistributor) (tree : MerkleTree)
    (cluster : List String) (commitmentHash : List UInt8) (shards : List ShardResult)
    (f t : NodeFiles) : Prop where
  outbox : ∀ peer upload, (peer, upload) ∈ t.outbox ↔ (peer, upload) ∈ f.outbox ∨
    ∃ sr ∈ shards, peer ∈ assignedNodes L cluster commitmentHash sr.index ∧
      peer ≠ d.resolvedNodeID env ∧ upload = uploadOf L d tree commitmentHash sr
  own : ∀ sr ∈ shards, t.shards.get (commitmentHash, sr.index) =
    if d.resolvedNodeID env ∈ assignedNodes L cluster commitmentHash sr.index then some sr.data
    else f.shards.get (commitmentHash, sr.index)
  other : ∀ k, (∀ sr ∈ shards, k ≠ (commitmentHash, sr.index)) → t.shards.get k = f.shards.get k

theorem placeShards_files {shards : List ShardResult} {nodeMap m : Store ℤ (List String)}
    (hnodup : (shards.map ShardResult.index).Nodup)
    (h : placeShards L env d tree cluster commitmentHash shards nodeMap f = .ok m t) :
    Placed L env d tree cluster commitmentHash shards f t := by
  induction shards generalizing nodeMap f with
  | nil =>
      obtain ⟨-, rfl⟩ := (pure_ok _ _).mp h
      exact ⟨by simp, by simp, fun _ _ => rfl⟩
  | cons sr rest ih =>
      obtain ⟨assigned, u, hplace, hrest⟩ := (bind_ok _ _).mp h
      obtain ⟨houtbox, hshards⟩ := placeShard_files hplace
      obtain ⟨hfresh, hnodup⟩ := List.nodup_cons.mp hnodup
      have hfiles := ih hnodup hrest
      have hget : ∀ k, k ≠ (commitmentHash, sr.index) → u.shards.get k = f.shards.get k := by
        intro k hk
        rw [hshards]
        split_ifs
        · exact Store.get_set_ne _ _ hk
        · rfl
      have hapart : ∀ sr' ∈ rest, (commitmentHash, sr'.index) ≠ (commitmentHash, sr.index) := by
        intro sr' hsr' heq
        exact hfresh ((Prod.mk.inj heq).2 ▸ List.mem_map_of_mem hsr')
      refine ⟨fun peer upload => ?_, fun sr' hsr' => ?_, fun k hk => ?_⟩
      · rw [hfiles.outbox, houtbox, List.mem_append, List.mem_map, or_assoc]
        simp only [List.mem_filter, decide_eq_true_eq, Prod.mk.injEq, List.exists_mem_cons_iff]
        refine or_congr_right (or_congr_left ⟨?_, ?_⟩)
        · rintro ⟨_, ⟨hpeer, hself⟩, rfl, rfl⟩
          exact ⟨hpeer, hself, rfl⟩
        · rintro ⟨hpeer, hself, rfl⟩
          exact ⟨peer, ⟨hpeer, hself⟩, rfl, rfl⟩
      · rcases List.mem_cons.mp hsr' with rfl | hmem
        · rw [hfiles.other _ fun sr'' hsr'' => (hapart sr'' hsr'').symm, hshards]
          split_ifs
          · exact Store.get_set_self ..
          · rfl
        · rw [hfiles.own sr' hmem, hget _ (hapart sr' hmem)]
      · rw [List.forall_mem_cons] at hk
        rw [hfiles.other k hk.2, hget k hk.1]

theorem distributeShards_files {shards : List ShardResult} {peerAddrs : List String}
    {tfheMeta : TFHEShardMeta} (hnodup : (shards.map ShardResult.index).Nodup)
    (htree : buildMerkleTree L shards = .ok tree)
    (h : distributeShards L env d shards commitmentHash peerAddrs f = .ok tfheMeta t) :
    Placed L env d tree (clusterNodes (d.resolvedNodeID env) peerAddrs env.tfhePeers)
      commitmentHash shards f t := by
  simp only [distributeShards, bind_ok, require_ok, mapErr_ok, ofExcept_ok, htree,
    Except.ok.injEq, pure_ok] at h
  obtain ⟨_, _, ⟨-, rfl⟩, _, _, ⟨rfl, rfl⟩, nodeMap, _, hplace, -, rfl⟩ := h
  exact placeShards_files hnodup hplace

/-- A node holds a shard on its own disk, or another after it answered the upload. -/
def Holds (env : Environment) (d : ShardDistributor) (f : NodeFiles) (commitmentHash : List UInt8)
    (node : String) (sr : ShardResult) : Prop :=
  (node = d.resolvedNodeID env ∧ f.shards.get (commitmentHash, sr.index) = some sr.data) ∨
    (node ≠ d.resolvedNodeID env ∧ ∃ upload, (node, upload) ∈ f.outbox ∧
      upload.commitmentHex = encodeToString commitmentHash ∧ upload.index = sr.index ∧
      upload.dataHex = encodeToString sr.data ∧ env.respond node upload = .ok ())

/-- After a distribution, a listed node holds a shard if it is the node itself, if it
answered the upload, or if it held the shard before. -/
theorem Placed.holds_iff {shards : List ShardResult}
    (h : Placed L env d tree cluster commitmentHash shards f t)
    (hnodup : (shards.map ShardResult.index).Nodup) (hsr : sr ∈ shards) {node : String}
    (hnode : node ∈ assignedNodes L cluster commitmentHash sr.index) :
    Holds env d t commitmentHash node sr ↔ node = d.resolvedNodeID env ∨
      env.respond node (uploadOf L d tree commitmentHash sr) = .ok () ∨
      Holds env d f commitmentHash node sr := by
  by_cases hself : node = d.resolvedNodeID env
  · have hown := h.own sr hsr
    rw [if_pos (hself ▸ hnode)] at hown
    exact iff_of_true (.inl ⟨hself, hown⟩) (.inl hself)
  · simp only [Holds, hself, false_and, false_or, not_false_eq_true, true_and, ne_eq]
    constructor
    · rintro ⟨upload, hsent, hhash, hindex, hdata, hanswer⟩
      rcases (h.outbox node upload).mp hsent with hold | ⟨sr', hsr', -, -, rfl⟩
      · exact .inr ⟨upload, hold, hhash, hindex, hdata, hanswer⟩
      · have hsame : sr' = sr := List.inj_on_of_nodup_map hnodup hsr' hsr hindex
        rw [hsame] at hanswer
        exact .inl hanswer
    · rintro (hanswer | ⟨upload, hsent, hrest⟩)
      · exact ⟨_, (h.outbox node _).mpr (.inr ⟨sr, hsr, hnode, hself, rfl⟩), rfl, rfl, rfl, hanswer⟩
      · exact ⟨upload, (h.outbox node upload).mpr (.inl hsent), hrest⟩

end Effects

end Zytherion.PlacedShards
