import Zytherion.Retrievability
import Zytherion.MerkleStep
import Mathlib.Data.Finset.Sort

/-!
# The names of a cluster

The names of peers are trimmed before they enter the cluster, the node's own name is
not. If it has no blanks around it, the nodes of every shard are fixed by the set of
trimmed names and the commitment alone. If it has, the node stands in the cluster
under a name that no peer uses for it, next to the trimmed one.
-/
namespace Zytherion.NodeNames

open GoCall KeyedStore Application ByteStrings Shards ShardPlacement PlacedShards Retrievability
open MerkleStep (exists_shard)
open SubmitAgreement (calmEnv sampleShards)

/-- The distinct trimmed names of a node and its peers that are not blank. -/
def nameSet (nodeID : String) (peerAddrs : List String) (envPeers : String) : Finset String :=
  (trimmedNames (nodeID :: (peerAddrs ++ splitCommas envPeers))).toFinset

/-- The nodes of a shard, from a set of names and the commitment. -/
def placement (L : ShardLibs) (names : Finset String) (commitmentHash : List UInt8) (index : ℤ) :
    List String :=
  assignedNodes L (names.sort (· ≤ ·)) commitmentHash index

/-- A distribution that returned, on a node that goes by `nodeID`. -/
structure Distribution (nodeID : String) where
  L : ShardLibs
  env : Environment
  d : ShardDistributor
  shards : List ShardResult
  tree : MerkleTree
  commitmentHash : List UInt8
  peerAddrs : List String
  before : NodeFiles
  after : NodeFiles
  tfheMeta : TFHEShardMeta
  resolved : d.resolvedNodeID env = nodeID
  wellIndexed : WellIndexed shards
  nodup : (shards.map ShardResult.index).Nodup
  built : buildMerkleTree L shards = .ok tree
  returned : distributeShards L env d shards commitmentHash peerAddrs before = .ok tfheMeta after

namespace Distribution
variable {nodeID : String} (r : Distribution nodeID)

def names : Finset String := nameSet nodeID r.peerAddrs r.env.tfhePeers

def cluster : List String := clusterNodes nodeID r.peerAddrs r.env.tfhePeers

/-- Every shard has four nodes, or all there are, which the set of names and the
commitment determine; the node keeps the shards it is listed for, and the others listed
are sent them. -/
structure WellPlaced : Prop where
  count : ∀ i : ℤ, 0 ≤ i → i < 16 →
    (listed r.tfheMeta i).length = min 4 r.names.card ∧ (listed r.tfheMeta i).Nodup ∧
      ∀ node ∈ listed r.tfheMeta i, node ∈ r.names
  determined : ∀ i : ℤ, 0 ≤ i → i < 16 →
    listed r.tfheMeta i = placement r.L r.names r.commitmentHash i
  stored : ∀ sr ∈ r.shards, r.after.shards.get (r.commitmentHash, sr.index) =
    if nodeID ∈ listed r.tfheMeta sr.index then some sr.data
    else r.before.shards.get (r.commitmentHash, sr.index)
  sent : ∀ peer upload, (peer, upload) ∈ r.after.outbox ↔ (peer, upload) ∈ r.before.outbox ∨
    ∃ sr ∈ r.shards, peer ∈ listed r.tfheMeta sr.index ∧ peer ≠ nodeID ∧
      upload = uploadOf r.L r.d r.tree r.commitmentHash sr

end Distribution

section Clusters
variable {nodeID : String} {cluster : List String}

theorem assignedNodes_length (L : ShardLibs) (cluster : List String) (commitmentHash : List UInt8)
    (index : ℤ) : (assignedNodes L cluster commitmentHash index).length = min 4 cluster.length := by
  rw [assignedNodes, List.length_map, List.length_range]
  rfl

theorem assignedNodes_nodup (L : ShardLibs) (commitmentHash : List UInt8) (index : ℤ)
    (hnodup : cluster.Nodup) : (assignedNodes L cluster commitmentHash index).Nodup := by
  refine List.Nodup.map_on ?_ List.nodup_range
  intro r hr r' hr' heq
  have hlt : r < cluster.length := lt_of_lt_of_le (List.mem_range.mp hr) (Nat.min_le_right ..)
  have hlt' : r' < cluster.length := lt_of_lt_of_le (List.mem_range.mp hr') (Nat.min_le_right ..)
  rw [getD_inj hnodup (Nat.mod_lt _ (by omega)) (Nat.mod_lt _ (by omega))] at heq
  exact (Nat.ModEq.add_left_cancel' _ heq).eq_of_lt_of_lt hlt hlt'

theorem assignedNodes_subset (L : ShardLibs) (commitmentHash : List UInt8) (index : ℤ)
    {node : String} (h : node ∈ assignedNodes L cluster commitmentHash index) :
    node ∈ cluster := by
  obtain ⟨r, hr, rfl⟩ := List.mem_map.mp h
  have hpos : r < cluster.length := lt_of_lt_of_le (List.mem_range.mp hr) (Nat.min_le_right ..)
  have hlt := Nat.mod_lt (primaryIdx L commitmentHash index cluster.length + r)
    (Nat.zero_lt_of_lt hpos)
  rw [List.getD_eq_getElem _ _ hlt]
  exact List.getElem_mem hlt

theorem trimmedNames_append (xs ys : List String) :
    trimmedNames (xs ++ ys) = trimmedNames xs ++ trimmedNames ys := by
  simp [trimmedNames]

theorem splitCommas_blank : trimmedNames (splitCommas "") = [] := by decide

/-- The set of a cluster is made of the name as it is and the trimmed names. -/
theorem clusterNodes_toFinset (nodeID : String) (peerAddrs : List String) (envPeers : String) :
    (clusterNodes nodeID peerAddrs envPeers).toFinset =
      insert nodeID (trimmedNames (peerAddrs ++ splitCommas envPeers)).toFinset := by
  have henv : (if envPeers ≠ "" then trimmedNames (splitCommas envPeers) else []) =
      trimmedNames (splitCommas envPeers) := by
    split_ifs with h
    · rfl
    · rw [not_not.mp h, splitCommas_blank]
  rw [clusterNodes, henv]
  ext node
  simp [trimmedNames]

/-- A node that goes by a trimmed name is in the cluster as one of the names. -/
theorem clusterNodes_names (htrim : trimSpace nodeID = nodeID) (hne : nodeID ≠ "")
    (peerAddrs : List String) (envPeers : String) :
    (clusterNodes nodeID peerAddrs envPeers).toFinset = nameSet nodeID peerAddrs envPeers := by
  have hown : trimmedNames (nodeID :: (peerAddrs ++ splitCommas envPeers)) =
      nodeID :: trimmedNames (peerAddrs ++ splitCommas envPeers) := by
    simp [trimmedNames, htrim, hne]
  rw [clusterNodes_toFinset, nameSet, hown, List.toFinset_cons]

/-- A cluster is its set in the order of names. -/
theorem clusterNodes_sort (nodeID : String) (peerAddrs : List String) (envPeers : String) :
    (clusterNodes nodeID peerAddrs envPeers).toFinset.sort (· ≤ ·) =
      clusterNodes nodeID peerAddrs envPeers :=
  (List.toFinset_sort _ (clusterNodes_nodup ..)).mpr (List.pairwise_insertionSort _ _)

end Clusters

namespace Distribution
variable {nodeID : String} (r : Distribution nodeID)

theorem nodeID_ne (r : Distribution nodeID) : nodeID ≠ "" := by
  rw [← r.resolved, ShardDistributor.resolvedNodeID]
  split_ifs with hown henv
  · exact hown
  · exact henv
  · decide

theorem listed_shard {sr : ShardResult} (hsr : sr ∈ r.shards) :
    listed r.tfheMeta sr.index = assignedNodes r.L r.cluster r.commitmentHash sr.index := by
  rw [listed_distributed r.returned hsr, r.resolved]
  rfl

theorem listed_index {i : ℤ} (hi : 0 ≤ i ∧ i < 16) :
    listed r.tfheMeta i = assignedNodes r.L r.cluster r.commitmentHash i := by
  obtain ⟨sr, hsr, rfl⟩ := exists_shard r.wellIndexed r.nodup hi
  exact r.listed_shard hsr

theorem listed_length {i : ℤ} (hi : 0 ≤ i ∧ i < 16) :
    (listed r.tfheMeta i).length = min 4 r.cluster.toFinset.card := by
  have hcard : r.cluster.toFinset.card = r.cluster.length :=
    List.toFinset_card_of_nodup (clusterNodes_nodup ..)
  rw [r.listed_index hi, assignedNodes_length, hcard]

/-- The files of the node follow the recorded map, whatever the names. -/
theorem placed :
    Placed r.L r.env r.d r.tree r.cluster r.commitmentHash r.shards r.before r.after := by
  have hplaced := distributeShards_files r.nodup r.built r.returned
  rw [r.resolved] at hplaced
  exact hplaced

theorem wellPlaced_of_trimmed (htrim : trimSpace nodeID = nodeID) : r.WellPlaced := by
  have hnames : r.cluster.toFinset = r.names :=
    clusterNodes_names htrim r.nodeID_ne r.peerAddrs r.env.tfhePeers
  have hplaced := r.placed
  constructor
  · intro i hlow hhigh
    refine ⟨?_, ?_, ?_⟩
    · rw [r.listed_length ⟨hlow, hhigh⟩, hnames]
    · rw [r.listed_index ⟨hlow, hhigh⟩]
      exact assignedNodes_nodup _ _ _ (clusterNodes_nodup ..)
    · intro node hnode
      rw [r.listed_index ⟨hlow, hhigh⟩] at hnode
      rw [← hnames, List.mem_toFinset]
      exact assignedNodes_subset _ _ _ hnode
  · intro i hlow hhigh
    rw [r.listed_index ⟨hlow, hhigh⟩, placement, ← hnames]
    exact congrArg (assignedNodes r.L · r.commitmentHash i) (clusterNodes_sort ..).symm
  · intro sr hsr
    have hown := hplaced.own sr hsr
    rwa [r.resolved, ← r.listed_shard hsr] at hown
  · intro peer upload
    rw [hplaced.outbox, r.resolved]
    refine or_congr_right (exists_congr fun sr => and_congr_right fun hsr => ?_)
    rw [r.listed_shard hsr]

end Distribution

section Untrimmed
variable {nodeID : String}

theorem sampleShards_facts : WellIndexed sampleShards ∧
    (sampleShards.map ShardResult.index).Nodup ∧ ∀ sr ∈ sampleShards, sr.data ≠ [] := by
  unfold WellIndexed
  decide

/-- Under every name, and with every list of peers, a distribution can return. -/
theorem exists_distribution (L : ShardLibs) (hne : nodeID ≠ "") (peerAddrs : List String) :
    ∃ r : Distribution nodeID, r.peerAddrs = peerAddrs ∧ r.env = calmEnv := by
  obtain ⟨hwell, hnodup, hdata⟩ := sampleShards_facts
  have hkept : Distributes L calmEnv ⟨nodeID, none⟩ sampleShards [1] peerAddrs :=
    fun sr hsr _ => ⟨hdata sr hsr, rfl, fun _ => rfl⟩
  obtain ⟨m, t, hreturned⟩ :=
    (distributeShards_returns (f := ⟨∅, ∅, []⟩) (by decide) hwell).mpr hkept
  exact ⟨⟨L, calmEnv, ⟨nodeID, none⟩, sampleShards, _, [1], peerAddrs, _, t, m, if_pos hne, hwell,
    hnodup, buildMerkleTree_eq L hwell, hreturned⟩, rfl, rfl⟩

/-- With itself as its only peer, a node whose name is not trimmed counts twice. -/
theorem card_untrimmed (htrim : trimSpace nodeID ≠ nodeID) :
    (nameSet nodeID [nodeID] "").card ≤ 1 ∧
      (clusterNodes nodeID [nodeID] "").toFinset.card = (nameSet nodeID [nodeID] "").card + 1 := by
  have hnames : nameSet nodeID [nodeID] "" = (trimmedNames [nodeID]).toFinset := by
    have happend : nodeID :: ([nodeID] ++ splitCommas "") =
        [nodeID] ++ ([nodeID] ++ splitCommas "") := rfl
    rw [nameSet, happend, trimmedNames_append, trimmedNames_append, splitCommas_blank,
      List.append_nil, List.toFinset_append, Finset.union_self]
  have hcluster : (clusterNodes nodeID [nodeID] "").toFinset =
      insert nodeID (trimmedNames [nodeID]).toFinset := by
    rw [clusterNodes_toFinset, trimmedNames_append, splitCommas_blank, List.append_nil]
  have hnot : nodeID ∉ (trimmedNames [nodeID]).toFinset := by
    simp [trimmedNames, Ne.symm htrim]
  have hone : (trimmedNames [nodeID]).length ≤ 1 :=
    (List.length_filter_le _ _).trans_eq (List.length_map _)
  rw [hcluster, hnames, Finset.card_insert_of_notMem hnot]
  exact ⟨(List.toFinset_card_le _).trans hone, rfl⟩

theorem not_wellPlaced (L : ShardLibs) (htrim : trimSpace nodeID ≠ nodeID) :
    ∃ r : Distribution nodeID, ¬r.WellPlaced := by
  have hne : nodeID ≠ "" := by
    rintro rfl
    exact htrim (by decide)
  obtain ⟨r, hpeers, henv⟩ := exists_distribution L hne [nodeID]
  refine ⟨r, fun hplaced => ?_⟩
  obtain ⟨hone, hcard⟩ := card_untrimmed htrim
  obtain ⟨hcount, -⟩ := hplaced.count 0 (le_refl 0) (by decide)
  have hnames : r.names = nameSet nodeID [nodeID] "" := by
    rw [Distribution.names, hpeers, henv]
    rfl
  have hcluster : r.cluster = clusterNodes nodeID [nodeID] "" := by
    rw [Distribution.cluster, hpeers, henv]
    rfl
  rw [r.listed_length ⟨le_refl 0, by decide⟩, hcluster, hnames, hcard] at hcount
  omega

end Untrimmed

/-- Under a name every distribution is well placed exactly if the name has no blanks
around it. -/
theorem well_placed_iff (nodeID : String) :
    (∀ r : Distribution nodeID, r.WellPlaced) ↔ trimSpace nodeID = nodeID := by
  constructor
  · intro h
    by_contra htrim
    obtain ⟨r, hr⟩ := not_wellPlaced spreadLibs htrim
    exact hr (h r)
  · intro htrim r
    exact r.wellPlaced_of_trimmed htrim

/-- A node that goes by `a` with a blank before it and has the peer `a`: there is one
trimmed name, and every shard has two nodes. -/
theorem one_name_two_nodes :
    (nameSet " a" ["a"] "").card = 1 ∧ clusterNodes " a" ["a"] "" = [" a", "a"] ∧
      ¬∀ r : Distribution " a", r.WellPlaced := by
  refine ⟨by decide, by decide, ?_⟩
  intro h
  have htrim : trimSpace " a" ≠ " a" := by decide
  obtain ⟨r, hr⟩ := not_wellPlaced spreadLibs htrim
  exact hr (h r)

end Zytherion.NodeNames
