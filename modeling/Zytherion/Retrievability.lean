import Zytherion.SubmitRuns
import Mathlib.Data.List.GetD
import Mathlib.Data.Nat.ModEq

/-!
# How many shards can be found again

Twelve of the sixteen shards are needed. A submission records for each shard the
nodes it was assigned to, whether or not they took it: the answers of the peers
are ignored. What was recorded can be found exactly if enough shards were assigned
to the node itself or to a peer that answered.

The nodes of a shard are four neighbours in the cluster. Once four neighbours are
gone, every shard whose first node is the first of them is gone, and no other is.
How many that are is up to the hash that picks the first node.
-/
namespace Zytherion.Retrievability

open GoCall KeyedStore Application ByteStrings Shards ShardPlacement TfheSubmit PlacedShards
open SubmitRuns

/-- At least `k` of the shards have the property. -/
def AtLeast (k : ℕ) (shards : List ShardResult) (P : ShardResult → Prop) : Prop :=
  ∃ found : List ShardResult, found.Sublist shards ∧ k ≤ found.length ∧ ∀ sr ∈ found, P sr

theorem atLeast_congr {k : ℕ} {shards : List ShardResult} {P Q : ShardResult → Prop}
    (h : ∀ sr ∈ shards, P sr ↔ Q sr) : AtLeast k shards P ↔ AtLeast k shards Q := by
  refine exists_congr fun found => and_congr_right fun hfound => and_congr_right fun _ => ?_
  exact forall₂_congr fun sr hsr => h sr (hfound.subset hsr)

/-- The nodes the metadata lists for a shard. -/
def listed (tfheMeta : TFHEShardMeta) (index : ℤ) : List String :=
  (tfheMeta.shardNodeMap.get index).getD []

/-- A shard can be found with one of the nodes listed for it. -/
def Found (env : Environment) (d : ShardDistributor) (f : NodeFiles) (tfheMeta : TFHEShardMeta)
    (sr : ShardResult) : Prop :=
  ∃ node ∈ listed tfheMeta sr.index, Holds env d f tfheMeta.commitmentHash node sr

section Submissions
variable {A : App} {L : PrivacyLibs} {tx : SubmitTx} {w w' : GasState}
  {shards : List ShardResult} {tree : MerkleTree}

theorem listed_tfheMeta {sr : ShardResult} (hsr : sr ∈ shards) :
    listed (tx.tfheMeta L shards) sr.index =
      assignedNodes L.toShardLibs (clusterOf tx.monikers tx.node) (commitmentOf L tx.msg)
        sr.index := by
  have hget : (tx.tfheMeta L shards).shardNodeMap.get sr.index = some _ := placementMap_get hsr
  rw [listed, hget]
  rfl

/-- The node keeps the shard itself, one of the listed peers answers its upload, or
one of them holds it already. -/
def Taken (L : PrivacyLibs) (tx : SubmitTx) (tree : MerkleTree) (f : NodeFiles)
    (tfheMeta : TFHEShardMeta) (sr : ShardResult) : Prop :=
  ∃ node ∈ listed tfheMeta sr.index, node = tx.node.nodeID ∨
    tx.node.env.respond node
      (uploadOf L.toShardLibs tx.node.distributor tree tfheMeta.commitmentHash sr) = .ok () ∨
    Holds tx.node.env tx.node.distributor f tfheMeta.commitmentHash node sr

theorem submit_placed {r : MsgTFHESubmitResponse} (h : submit A L tx w = .ok r w')
    (hsplit : split L.toShardLibs tx.msg.ciphertext = .ok shards)
    (htree : buildMerkleTree L.toShardLibs shards = .ok tree) :
    w'.store.get (tfheMetaKey (commitmentOf L tx.msg)) =
        some (marshalTFHEMeta L (tx.tfheMeta L shards)) ∧
      Placed L.toShardLibs tx.node.env tx.node.distributor tree (clusterOf tx.monikers tx.node)
        (commitmentOf L tx.msg) shards w.files w'.files := by
  obtain ⟨sender, shards', m, f, hadmitted, -, hdistribute, -, -, rfl⟩ := submit_ok.mp h
  obtain rfl : shards' = shards := Except.ok.inj (hadmitted.split.symm.trans hsplit)
  refine ⟨?_, ?_⟩
  · exact (get_meta_recorded ..).trans (if_pos rfl)
  · have hplaced := distributeShards_files (split_nodup _ hsplit) htree hdistribute
    rwa [LocalNode.resolvedNodeID_eq] at hplaced

/-- After a submission that succeeded, twelve shards can be found under the recorded
metadata if and only if twelve were taken. -/
theorem submission_retrievable_iff {r : MsgTFHESubmitResponse} (h : submit A L tx w = .ok r w')
    (hsplit : split L.toShardLibs tx.msg.ciphertext = .ok shards)
    (htree : buildMerkleTree L.toShardLibs shards = .ok tree) :
    w'.store.get (tfheMetaKey (commitmentOf L tx.msg)) =
        some (marshalTFHEMeta L (tx.tfheMeta L shards)) ∧
      (AtLeast erasureDataShards shards
          (Found tx.node.env tx.node.distributor w'.files (tx.tfheMeta L shards)) ↔
        AtLeast erasureDataShards shards (Taken L tx tree w.files (tx.tfheMeta L shards))) := by
  obtain ⟨hmeta, hplaced⟩ := submit_placed h hsplit htree
  refine ⟨hmeta, atLeast_congr fun sr hsr => ?_⟩
  refine exists_congr fun node => and_congr_right fun hnode => ?_
  rw [listed_tfheMeta hsr] at hnode
  rw [← tx.node.resolvedNodeID_eq]
  exact hplaced.holds_iff (split_nodup _ hsplit) hsr hnode

end Submissions

section Silent
open Devnet SubmitAgreement

theorem sampleShards_tree :
    ∃ tree, buildMerkleTree sampleLibs.toShardLibs sampleShards = .ok tree := by
  obtain ⟨tree, htree, -⟩ := buildMerkleTree_ok sampleLibs.toShardLibs
    (split_wellIndexed sampleLibs.toShardLibs sampleMsg_admitted.split)
  exact ⟨tree, htree⟩

/-- Every shard is assigned to other nodes, none of which answers. -/
def outsider : SubmitTx :=
  { freeSubmission with monikers := ["a", "b", "c", "d"], node := nodeNamed "e" silentEnv }

abbrev fundedOutsider : SubmitTx := outsider.funded sampleLibs alice sampleShards ∅

theorem outsider_loses_all : ∃ r w',
    submit devnet sampleLibs fundedOutsider ⟨emptyNode, fundedOutsider.gas⟩ = .ok r w' ∧
      ∀ sr ∈ sampleShards, ¬ Found silentEnv fundedOutsider.node.distributor w'.files
        (fundedOutsider.tfheMeta sampleLibs sampleShards) sr := by
  obtain ⟨r, w', hsubmit⟩ := funded_submits outsider (w := emptyNode) sampleMsg_admitted
    (nodeNamed_ready ["a", "b", "c", "d"] _ "e" fun _ _ => rfl)
  obtain ⟨tree, htree⟩ := sampleShards_tree
  obtain ⟨-, hplaced⟩ := submit_placed hsubmit sampleMsg_admitted.split htree
  refine ⟨r, w', hsubmit, ?_⟩
  rintro sr hsr ⟨node, hnode, hholds⟩
  rw [listed_tfheMeta hsr] at hnode
  rcases (hplaced.holds_iff (split_nodup _ sampleMsg_admitted.split) hsr hnode).mp hholds with
    hself | hanswer | ⟨-, hdisk⟩ | ⟨-, _, hsent, -⟩
  · have hapart : ∀ sr ∈ sampleShards, "e" ∉ assignedNodes sampleLibs.toShardLibs
        (clusterOf ["a", "b", "c", "d"] (nodeNamed "e" silentEnv))
        (commitmentOf sampleLibs sampleMsg) sr.index := by
      decide +kernel
    obtain rfl : node = "e" := hself
    exact hapart sr hsr hnode
  · cases hanswer
  · cases hdisk
  · cases hsent

/-- A node on its own keeps everything. -/
theorem own_shards_found : ∃ r w',
    submit devnet sampleLibs fundedSubmission ⟨emptyNode, fundedSubmission.gas⟩ = .ok r w' ∧
      AtLeast erasureDataShards sampleShards (Found fundedSubmission.node.env
        fundedSubmission.node.distributor w'.files
        (fundedSubmission.tfheMeta sampleLibs sampleShards)) := by
  obtain ⟨r, w', hsubmit⟩ := funded_submits freeSubmission (w := emptyNode)
    sampleMsg_admitted (nodeNamed_ready [] _ "node1" calmEnv_writes)
  obtain ⟨tree, htree⟩ := sampleShards_tree
  refine ⟨r, w', hsubmit,
    (submission_retrievable_iff hsubmit sampleMsg_admitted.split htree).2.mpr ?_⟩
  refine ⟨sampleShards, List.Sublist.refl _, by decide, fun sr hsr => ⟨"node1", ?_, .inl rfl⟩⟩
  rw [listed_tfheMeta hsr]
  have hown : ∀ sr ∈ sampleShards, "node1" ∈ assignedNodes sampleLibs.toShardLibs
      (clusterOf [] (nodeNamed "node1" calmEnv)) (commitmentOf sampleLibs sampleMsg) sr.index := by
    decide +kernel
  exact hown sr hsr

end Silent

/-! Four neighbours in a circle of at least five determine the first of them. -/

theorem neighbour_outside {n p q : ℕ} (hn : 5 ≤ n) (hp : p < n) (hq : q < n) (hne : p ≠ q)
    (h : ∀ r < 4, ∃ r' < 4, (p + r) % n = (q + r') % n) : False := by
  obtain ⟨r, hr, hpr⟩ := h 0 (by decide)
  rw [Nat.add_zero, Nat.mod_eq_of_lt hp] at hpr
  have hpos : r ≠ 0 := by
    rintro rfl
    rw [Nat.add_zero, Nat.mod_eq_of_lt hq] at hpr
    exact hne hpr
  -- the node after the four that start at `q` is one of the four that start at `p`
  obtain ⟨r', hr', heq⟩ := h (4 - r) (by omega)
  have hfour : (p + (4 - r)) % n = (q + 4) % n := by
    rw [hpr, Nat.mod_add_mod]
    congr 1
    omega
  have hmod : 4 ≡ r' [MOD n] := Nat.ModEq.add_left_cancel' q (hfour.symm.trans heq)
  have hlt := hmod.eq_of_lt_of_lt (by omega) (by omega)
  omega

/-- The four nodes from a given one on, in the order of names. -/
def neighbours (cluster : List String) (p : ℕ) : List String :=
  (List.range replicationFactor).map fun r => cluster.getD ((p + r) % cluster.length) ""

section Neighbours
variable {cluster : List String} {p q : ℕ}

theorem assignedNodes_eq_neighbours (L : ShardLibs) (commitmentHash : List UInt8) (index : ℤ)
    (hsize : 5 ≤ cluster.length) : assignedNodes L cluster commitmentHash index =
      neighbours cluster (primaryIdx L commitmentHash index cluster.length) := by
  rw [assignedNodes, min_eq_left (by unfold replicationFactor; omega)]
  rfl

theorem getD_inj (hnodup : cluster.Nodup) {i j : ℕ} (hi : i < cluster.length)
    (hj : j < cluster.length) : cluster.getD i "" = cluster.getD j "" ↔ i = j := by
  rw [List.getD_eq_getElem _ _ hi, List.getD_eq_getElem _ _ hj]
  exact hnodup.getElem_inj_iff

theorem mem_neighbours {node : String} :
    node ∈ neighbours cluster p ↔ ∃ r < 4, cluster.getD ((p + r) % cluster.length) "" = node := by
  simp [neighbours, replicationFactor]

theorem neighbours_subset (hsize : 5 ≤ cluster.length) {node : String}
    (h : node ∈ neighbours cluster p) : node ∈ cluster := by
  obtain ⟨r, -, rfl⟩ := mem_neighbours.mp h
  have hlt : (p + r) % cluster.length < cluster.length := Nat.mod_lt _ (by omega)
  rw [List.getD_eq_getElem _ _ hlt]
  exact List.getElem_mem hlt

theorem neighbours_nodup (hnodup : cluster.Nodup) (hsize : 5 ≤ cluster.length) :
    (neighbours cluster p).Nodup := by
  refine List.Nodup.map_on (fun r hr r' hr' heq => ?_) List.nodup_range
  have hr := List.mem_range.mp hr
  have hr' := List.mem_range.mp hr'
  unfold replicationFactor at hr hr'
  rw [getD_inj hnodup (Nat.mod_lt _ (by omega)) (Nat.mod_lt _ (by omega))] at heq
  have hmod : r ≡ r' [MOD cluster.length] := Nat.ModEq.add_left_cancel' p heq
  exact hmod.eq_of_lt_of_lt (by omega) (by omega)

theorem neighbours_inj (hnodup : cluster.Nodup) (hsize : 5 ≤ cluster.length)
    (hp : p < cluster.length) (hq : q < cluster.length)
    (h : neighbours cluster p ⊆ neighbours cluster q) : p = q := by
  by_contra hne
  refine neighbour_outside hsize hp hq hne fun r hr => ?_
  obtain ⟨r', hr', heq⟩ := mem_neighbours.mp (h (mem_neighbours.mpr ⟨r, hr, rfl⟩))
  rw [getD_inj hnodup (Nat.mod_lt _ (by omega)) (Nat.mod_lt _ (by omega))] at heq
  exact ⟨r', hr', heq.symm⟩

end Neighbours

/-- The shards whose first node is the given one. -/
def startingAt (L : ShardLibs) (commitmentHash : List UInt8) (size : ℕ) (shards : List ShardResult)
    (p : ℕ) : List ShardResult :=
  shards.filter fun sr => primaryIdx L commitmentHash sr.index size = p

theorem clusterNodes_nodup (nodeID : String) (peerAddrs : List String) (envPeers : String) :
    (clusterNodes nodeID peerAddrs envPeers).Nodup :=
  (List.perm_insertionSort _ _).nodup_iff.mpr (List.nodup_dedup _)

section Losses
variable {L : ShardLibs} {cluster : List String} {commitmentHash : List UInt8}
  {shards : List ShardResult}

/-- The shard has a node that is not lost. -/
def Survives (L : ShardLibs) (cluster : List String) (commitmentHash : List UInt8)
    (lost : Finset String) (sr : ShardResult) : Prop :=
  ∃ node ∈ assignedNodes L cluster commitmentHash sr.index, node ∉ lost

theorem not_survives {lost : Finset String} {sr : ShardResult} (hsize : 5 ≤ cluster.length) :
    ¬ Survives L cluster commitmentHash lost sr ↔
      (neighbours cluster (primaryIdx L commitmentHash sr.index cluster.length)).toFinset ⊆
        lost := by
  simp only [Survives, assignedNodes_eq_neighbours L commitmentHash sr.index hsize, not_exists,
    not_and, not_not, Finset.subset_iff, List.mem_toFinset]

theorem neighbours_card {p : ℕ} (hnodup : cluster.Nodup) (hsize : 5 ≤ cluster.length) :
    (neighbours cluster p).toFinset.card = 4 := by
  rw [List.toFinset_card_of_nodup (neighbours_nodup hnodup hsize), neighbours, List.length_map,
    List.length_range]
  rfl

/-- The shards that do not start at a node. -/
theorem startingAt_add (L : ShardLibs) (commitmentHash : List UInt8) (size : ℕ)
    (shards : List ShardResult) (p : ℕ) :
    (startingAt L commitmentHash size shards p).length +
      (shards.filter fun sr => !decide (primaryIdx L commitmentHash sr.index size = p)).length =
        shards.length :=
  (List.length_eq_length_filter_add _).symm

/-- Four losses leave twelve shards, whichever they are, exactly if no node is the
first of more than four shards. -/
theorem survives_iff (hnodup : cluster.Nodup) (hsize : 5 ≤ cluster.length)
    (hlen : shards.length = erasureTotalShards) :
    (∀ lost : Finset String, lost ⊆ cluster.toFinset → lost.card = 4 →
      AtLeast erasureDataShards shards (Survives L cluster commitmentHash lost)) ↔
    ∀ p < cluster.length,
      (startingAt L commitmentHash cluster.length shards p).length ≤ erasureParityShards := by
  unfold erasureTotalShards at hlen
  constructor
  · intro h p hp
    obtain ⟨found, hsub, hcount, hfound⟩ := h (neighbours cluster p).toFinset
      (fun node hnode => List.mem_toFinset.mpr
        (neighbours_subset hsize (List.mem_toFinset.mp hnode))) (neighbours_card hnodup hsize)
    -- no shard that starts at `p` is among those found
    have hother : found.filter (fun sr =>
        !decide (primaryIdx L commitmentHash sr.index cluster.length = p)) = found := by
      refine List.filter_eq_self.mpr fun sr hsr => ?_
      rw [Bool.not_eq_true', decide_eq_false_iff_not]
      rintro rfl
      exact (not_survives hsize).mpr (Finset.Subset.refl _) (hfound sr hsr)
    have hle := (hsub.filter fun sr =>
      !decide (primaryIdx L commitmentHash sr.index cluster.length = p)).length_le
    have hsum := startingAt_add L commitmentHash cluster.length shards p
    rw [hother] at hle
    omega
  · intro h lost hlost hcard
    by_cases hall : ∃ sr ∈ shards, ¬ Survives L cluster commitmentHash lost sr
    · obtain ⟨sr₀, -, hgone⟩ := hall
      obtain ⟨p, hp, hpr⟩ : ∃ p < cluster.length,
          primaryIdx L commitmentHash sr₀.index cluster.length = p :=
        ⟨_, Nat.mod_lt _ (by omega), rfl⟩
      rw [not_survives hsize, hpr] at hgone
      have heq : (neighbours cluster p).toFinset = lost :=
        Finset.eq_of_subset_of_card_le hgone (by rw [hcard, neighbours_card hnodup hsize])
      refine ⟨shards.filter fun sr =>
        !decide (primaryIdx L commitmentHash sr.index cluster.length = p),
        List.filter_sublist, ?_, fun sr hsr => ?_⟩
      · have hsum := startingAt_add L commitmentHash cluster.length shards p
        have hfew := h p hp
        omega
      · by_contra hgone'
        rw [not_survives hsize, ← heq] at hgone'
        have hsame := neighbours_inj hnodup hsize (Nat.mod_lt _ (by omega)) hp fun node hnode =>
          List.mem_toFinset.mp (hgone' (List.mem_toFinset.mpr hnode))
        have hne := (List.mem_filter.mp hsr).2
        rw [Bool.not_eq_true', decide_eq_false_iff_not] at hne
        exact hne hsame
    · refine ⟨shards, List.Sublist.refl _, by omega, fun sr hsr => ?_⟩
      by_contra hgone
      exact hall ⟨sr, hsr, hgone⟩

theorem listed_distributed {env : Environment} {d : ShardDistributor} {peerAddrs : List String}
    {f t : NodeFiles} {m : TFHEShardMeta} {sr : ShardResult}
    (h : distributeShards L env d shards commitmentHash peerAddrs f = .ok m t) (hsr : sr ∈ shards) :
    listed m sr.index = assignedNodes L
      (clusterNodes (d.resolvedNodeID env) peerAddrs env.tfhePeers) commitmentHash sr.index := by
  rw [listed, (distributeShards_ok h).2, placementMap_get hsr]
  rfl

/-- If all sends succeed, twelve shards still have a holder after the loss of any four
nodes of a cluster of five or more exactly if no node is the first of more than four
shards. -/
theorem placement_tolerates_iff {env : Environment} {d : ShardDistributor} {data : List UInt8}
    {peerAddrs : List String} {f t : NodeFiles} {m : TFHEShardMeta}
    (hsplit : split L data = .ok shards)
    (h : distributeShards L env d shards commitmentHash peerAddrs f = .ok m t)
    (hsends : ∀ node upload, env.respond node upload = .ok ())
    (hsize : 5 ≤ (clusterNodes (d.resolvedNodeID env) peerAddrs env.tfhePeers).length) :
    (∀ lost : Finset String,
      lost ⊆ (clusterNodes (d.resolvedNodeID env) peerAddrs env.tfhePeers).toFinset →
      lost.card = 4 → AtLeast erasureDataShards shards fun sr =>
        ∃ node ∈ listed m sr.index, node ∉ lost ∧ Holds env d t commitmentHash node sr) ↔
    ∀ p < (clusterNodes (d.resolvedNodeID env) peerAddrs env.tfhePeers).length,
      (startingAt L commitmentHash
        (clusterNodes (d.resolvedNodeID env) peerAddrs env.tfhePeers).length shards p).length ≤
        erasureParityShards := by
  have hwell := split_wellIndexed L hsplit
  obtain ⟨tree, htree, -⟩ := buildMerkleTree_ok L hwell
  have hplaced := distributeShards_files (split_nodup _ hsplit) htree h
  rw [← survives_iff (clusterNodes_nodup _ _ _) hsize hwell.1]
  refine forall_congr' fun lost => forall₂_congr fun _ _ => atLeast_congr fun sr hsr => ?_
  rw [listed_distributed h hsr]
  refine exists_congr fun node => and_congr_right fun hnode => and_iff_left ?_
  exact (hplaced.holds_iff (split_nodup _ hsplit) hsr hnode).mpr (.inr (.inl (hsends node _)))

end Losses

section Clusters
open Devnet SubmitAgreement

/-- Five nodes, seen from the last. -/
def lastNode : ShardDistributor := ⟨"e", none⟩

def fourPeers : List String := ["a", "b", "c", "d"]

theorem sampleShards_distributed (L : ShardLibs) :
    ∃ m t, distributeShards L calmEnv lastNode sampleShards [1] fourPeers ⟨∅, ∅, []⟩ =
      .ok m t := by
  refine (distributeShards_returns (by decide)
    (split_wellIndexed sampleLibs.toShardLibs sampleMsg_admitted.split)).mpr fun sr hsr _ => ?_
  obtain ⟨i, -, rfl⟩ := List.mem_map.mp hsr
  exact ⟨List.cons_ne_nil 1 [], rfl, fun hsig => absurd rfl hsig⟩

/-- One hash for all shards puts them on the same four nodes. -/
theorem four_losses_lose_all : ∃ m t,
    distributeShards sampleLibs.toShardLibs calmEnv lastNode sampleShards [1] fourPeers
      ⟨∅, ∅, []⟩ = .ok m t ∧
    (clusterNodes "e" fourPeers "").length = 5 ∧
    ∀ sr ∈ sampleShards, ∀ node ∈ listed m sr.index, node ∈ fourPeers := by
  obtain ⟨m, t, h⟩ := sampleShards_distributed sampleLibs.toShardLibs
  refine ⟨m, t, h, by decide +kernel, fun sr hsr => ?_⟩
  rw [listed_distributed h hsr]
  have hall : ∀ sr ∈ sampleShards, ∀ node ∈ assignedNodes sampleLibs.toShardLibs
      (clusterNodes "e" fourPeers "") [1] sr.index, node ∈ fourPeers := by
    decide +kernel
  exact hall sr hsr

/-- A hash that follows the last digit of the shard's index. -/
def spreadLibs : ShardLibs :=
  { sampleLibs.toShardLibs with sum256 := fun b => Vector.replicate 32 (b.getLastD 0) }

theorem spread_shards_survive : ∃ m t,
    distributeShards spreadLibs calmEnv lastNode sampleShards [1] fourPeers ⟨∅, ∅, []⟩ =
      .ok m t ∧
    ∀ lost : Finset String, lost ⊆ (clusterNodes "e" fourPeers "").toFinset → lost.card = 4 →
      AtLeast erasureDataShards sampleShards fun sr =>
        ∃ node ∈ listed m sr.index, node ∉ lost ∧ Holds calmEnv lastNode t [1] node sr := by
  obtain ⟨m, t, h⟩ := sampleShards_distributed spreadLibs
  have hsplit : split spreadLibs (List.replicate 1024 0) = .ok sampleShards :=
    sampleMsg_admitted.split
  refine ⟨m, t, h, (placement_tolerates_iff hsplit h (fun _ _ => rfl) ?_).mpr ?_⟩
  · decide +kernel
  · decide +kernel

end Clusters

end Zytherion.Retrievability
