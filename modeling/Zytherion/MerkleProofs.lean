import Zytherion.HashTrees
import Zytherion.ShardPlacement
import Mathlib.Data.List.GetD

/-!
# Merkle proofs of shards

The tree over the shards' hashes is a tree of hashes of depth four. The proof made
for a shard is the path of its leaf, so that it is accepted against the root.
Whatever else is accepted against the root at that index is the shard itself, or
two strings with one digest can be named: one hashed for the check, the other for
the tree.
-/
namespace Zytherion.MerkleProofs

open GoCall Application ByteStrings Shards HashTrees

structure MerkleProof where
  leafIndex : ℤ
  path : List Hash

section Verification
variable (L : ShardLibs)

/-- The loop of `VerifyProof`. -/
def recompute : ℤ → Hash → List Hash → Hash
  | _, current, [] => current
  | idx, current, sibling :: path =>
      recompute (idx.tdiv 2)
        (if idx.tmod 2 = 0 then hashPair L current sibling else hashPair L sibling current) path

def verifyProof (root : Hash) (shardIndex : ℤ) (shardData : List UInt8) (proof : MerkleProof) :
    Except Err Unit :=
  if proof.leafIndex ≠ shardIndex then
    .error (.plain ("merkle: proof.LeafIndex (" ++ toString proof.leafIndex ++
      ") != shardIndex (" ++ toString shardIndex ++ ")"))
  else
    let current := recompute L shardIndex (L.sum256 shardData) proof.path
    if current ≠ root then
      .error (.plain ("merkle: proof verification failed for shard " ++ toString shardIndex ++
        ": computed root " ++ encodeToString current.toList ++ " != expected " ++
        encodeToString root.toList))
    else .ok ()

end Verification

section Levels
variable {L : ShardLibs}

theorem recompute_eq_climb (i : ℕ) (x : Hash) (path : List Hash) :
    recompute L (i : ℤ) x path = climb (hashPair L) i x path := by
  induction path generalizing i x with
  | nil => rfl
  | cons sibling path ih =>
      have hdiv : (i : ℤ).tdiv 2 = ((i / 2 : ℕ) : ℤ) := rfl
      have hmod : (i : ℤ).tmod 2 = 0 ↔ i % 2 = 0 := by
        rw [Int.tmod_eq_emod_of_nonneg (Int.natCast_nonneg i)]
        omega
      rw [recompute, climb, hdiv, ih, hashed, inOrder]
      simp only [hmod]
      split_ifs <;> rfl

theorem parentLevel_length : ∀ level : List Hash, (parentLevel L level).length = level.length / 2
  | [] => rfl
  | [_] => by simp [parentLevel]
  | left :: right :: rest => by
      simp only [parentLevel, List.length_cons, parentLevel_length rest]
      omega

theorem parentLevel_getD : ∀ (level : List Hash) {i : ℕ}, 2 * i + 1 < level.length →
    (parentLevel L level).getD i zeroHash = up (hashPair L) (fun j => level.getD j zeroHash) i
  | [], _, hi => absurd hi (by simp)
  | [_], _, hi => absurd hi (by simp)
  | left :: right :: rest, 0, _ => rfl
  | left :: right :: rest, i + 1, hi => by
      simp only [List.length_cons] at hi
      exact parentLevel_getD rest (by omega)

theorem buildLevels_length (depth : ℕ) (level : List Hash) :
    (buildLevels L depth level).length = depth + 1 := by
  induction depth generalizing level with
  | zero => rfl
  | succ depth ih => rw [buildLevels, List.length_append, ih, List.length_singleton]

/-- The nodes of the tree are those of the tree of hashes over its leaves. -/
theorem node_eq_ancestor {depth lvl i : ℕ} {leaves : List Hash} (n : ℕ)
    (hlen : leaves.length = 2 ^ depth) (hlvl : lvl ≤ depth) (hi : i < 2 ^ lvl) :
    (MerkleTree.mk (buildLevels L depth leaves) depth n).node lvl i =
      ancestor (hashPair L) (depth - lvl) (fun j => leaves.getD j zeroHash) i := by
  induction depth generalizing leaves lvl with
  | zero =>
      obtain rfl : lvl = 0 := by omega
      rfl
  | succ depth ih =>
      have hbelow := buildLevels_length (L := L) depth (parentLevel L leaves)
      rcases hlvl.eq_or_lt with rfl | hlt
      · unfold MerkleTree.node buildLevels
        rw [List.getD_append_right _ _ _ _ (by omega), hbelow, Nat.sub_self]
        rfl
      · have hnode : (MerkleTree.mk (buildLevels L (depth + 1) leaves) (depth + 1) n).node lvl i =
            (MerkleTree.mk (buildLevels L depth (parentLevel L leaves)) depth n).node lvl i := by
          unfold MerkleTree.node
          rw [buildLevels, List.getD_append _ _ _ _ (by omega)]
        have hparents : (parentLevel L leaves).length = 2 ^ depth := by
          rw [parentLevel_length, hlen, pow_succ, Nat.mul_div_cancel _ (by decide)]
        rw [hnode, ih hparents (by omega) hi, Nat.succ_sub (by omega)]
        refine ancestor_congr fun j hj => parentLevel_getD leaves ?_
        have hrange : (i + 1) * 2 ^ (depth - lvl) ≤ 2 ^ lvl * 2 ^ (depth - lvl) :=
          Nat.mul_le_mul_right _ hi
        rw [← pow_add, Nat.add_sub_cancel' (by omega : lvl ≤ depth)] at hrange
        rw [hlen, pow_succ]
        omega

/-- The path of a leaf in the tree. -/
theorem path_eq_siblings {depth lvl i : ℕ} {leaves : List Hash} (n : ℕ)
    (hlen : leaves.length = 2 ^ depth) (hlvl : lvl ≤ depth) (hi : i < 2 ^ lvl) :
    (MerkleTree.mk (buildLevels L depth leaves) depth n).path lvl i =
      siblings (hashPair L) lvl
        (ancestor (hashPair L) (depth - lvl) fun j => leaves.getD j zeroHash) i := by
  induction lvl generalizing i with
  | zero => rfl
  | succ lvl ih =>
      have hsibling : i ^^^ 1 < 2 ^ (lvl + 1) :=
        Nat.xor_lt_two_pow hi (Nat.one_lt_two_pow (by omega))
      have hup : depth - lvl = depth - (lvl + 1) + 1 := by omega
      rw [MerkleTree.path, siblings, node_eq_ancestor n hlen hlvl hsibling,
        ih (by omega) (by rw [pow_succ] at hi; omega), up_ancestor, ← hup]

end Levels

section Trees
variable {L : ShardLibs} {shards : List ShardResult} {sr : ShardResult}

def leafAt (L : ShardLibs) (shards : List ShardResult) (i : ℕ) : Hash :=
  (leafHashes L shards).getD i zeroHash

theorem foldl_set_length (xs : List ShardResult) (leaves : List Hash) :
    (xs.foldl (fun leaves sr => leaves.set sr.index.toNat (L.sum256 sr.data)) leaves).length =
      leaves.length := by
  induction xs generalizing leaves with
  | nil => rfl
  | cons x xs ih => rw [List.foldl_cons, ih, List.length_set]

theorem leafHashes_length : (leafHashes L shards).length = 2 ^ 4 := by
  rw [leafHashes, foldl_set_length, List.length_replicate]
  rfl

theorem foldl_set_getD_ne {k : ℕ} (xs : List ShardResult) (leaves : List Hash)
    (hk : ∀ sr ∈ xs, sr.index.toNat ≠ k) :
    (xs.foldl (fun leaves sr => leaves.set sr.index.toNat (L.sum256 sr.data)) leaves).getD k
      zeroHash = leaves.getD k zeroHash := by
  induction xs generalizing leaves with
  | nil => rfl
  | cons x xs ih =>
      rw [List.forall_mem_cons] at hk
      rw [List.foldl_cons, ih _ hk.2, List.getD_eq_getElem?_getD, List.getD_eq_getElem?_getD,
        List.getElem?_set_ne hk.1]

theorem foldl_set_getD (xs : List ShardResult) (leaves : List Hash)
    (hxs : (xs.map fun sr => sr.index.toNat).Nodup) (hsr : sr ∈ xs)
    (hlen : sr.index.toNat < leaves.length) :
    (xs.foldl (fun leaves sr => leaves.set sr.index.toNat (L.sum256 sr.data)) leaves).getD
      sr.index.toNat zeroHash = L.sum256 sr.data := by
  induction xs generalizing leaves with
  | nil => cases hsr
  | cons x xs ih =>
      obtain ⟨hfresh, hxs⟩ := List.nodup_cons.mp hxs
      rw [List.foldl_cons]
      rcases List.mem_cons.mp hsr with rfl | hmem
      · have hlater : ∀ sr' ∈ xs, sr'.index.toNat ≠ sr.index.toNat := fun sr' hsr' heq =>
          hfresh (List.mem_map.mpr ⟨sr', hsr', heq⟩)
        rw [foldl_set_getD_ne xs _ hlater, List.getD_eq_getElem?_getD,
          List.getElem?_set_self hlen]
        rfl
      · exact ih _ hxs hmem (by rwa [List.length_set])

/-- Each shard's hash is the leaf at its index. -/
theorem leafAt_shard (h : WellIndexed shards) (hnodup : (shards.map ShardResult.index).Nodup)
    (hsr : sr ∈ shards) : leafAt L shards sr.index.toNat = L.sum256 sr.data := by
  refine foldl_set_getD shards _ ?_ hsr ?_
  · have hmap : (shards.map fun sr => sr.index.toNat) =
        (shards.map ShardResult.index).map Int.toNat := by
      rw [List.map_map]
      rfl
    rw [hmap]
    refine hnodup.map_on fun i hi j hj heq => ?_
    obtain ⟨x, hx, rfl⟩ := List.mem_map.mp hi
    obtain ⟨y, hy, rfl⟩ := List.mem_map.mp hj
    have hxi := h.2 x hx
    have hyi := h.2 y hy
    omega
  · have hindex := h.2 sr hsr
    rw [List.length_replicate]
    omega

/-- The root of the tree over the shards. -/
def rootOf (L : ShardLibs) (shards : List ShardResult) : Hash :=
  ancestor (hashPair L) 4 (leafAt L shards) 0

theorem rootBytes_eq {tree : MerkleTree} (h : WellIndexed shards)
    (htree : buildMerkleTree L shards = .ok tree) : tree.rootBytes = (rootOf L shards).toList := by
  obtain rfl := Except.ok.inj ((buildMerkleTree_eq L h).symm.trans htree)
  exact congrArg Vector.toList
    (node_eq_ancestor _ leafHashes_length (Nat.zero_le 4) (by decide))

theorem proof_eq_siblings {tree : MerkleTree} (h : WellIndexed shards)
    (htree : buildMerkleTree L shards = .ok tree) {i : ℕ} (hi : i < erasureTotalShards) :
    tree.path tree.depth i = siblings (hashPair L) 4 (leafAt L shards) i := by
  obtain rfl := Except.ok.inj ((buildMerkleTree_eq L h).symm.trans htree)
  exact path_eq_siblings _ leafHashes_length (le_refl 4) hi

/-- What goes along with a shard has its sizes. -/
theorem proof_sizes {tree : MerkleTree} (h : WellIndexed shards)
    (htree : buildMerkleTree L shards = .ok tree) (hsr : sr ∈ shards) :
    tree.rootBytes.length = 32 ∧ (tree.path tree.depth sr.index.toNat).length = 4 := by
  have hindex := h.2 sr hsr
  constructor
  · rw [rootBytes_eq h htree, Vector.length_toList]
  · rw [proof_eq_siblings h htree (by omega)]
    rfl

theorem verifyProof_ok {root : Hash} {i : ℕ} {data : List UInt8} {path : List Hash} :
    verifyProof L root i data ⟨i, path⟩ = .ok () ↔
      climb (hashPair L) i (L.sum256 data) path = root := by
  rw [verifyProof, if_neg (not_not.mpr rfl), recompute_eq_climb]
  dsimp only
  split_ifs with hroot
  · simpa using hroot
  · simpa using hroot

/-- The proof made for a shard is accepted. -/
theorem verifyProof_shard {tree : MerkleTree} (h : WellIndexed shards)
    (hnodup : (shards.map ShardResult.index).Nodup)
    (htree : buildMerkleTree L shards = .ok tree) (hsr : sr ∈ shards) :
    verifyProof L (rootOf L shards) sr.index sr.data
      ⟨sr.index, tree.path tree.depth sr.index.toNat⟩ = .ok () := by
  have hindex := h.2 sr hsr
  obtain ⟨i, hi⟩ : ∃ i : ℕ, sr.index = i := ⟨sr.index.toNat, by omega⟩
  have hlt : i < erasureTotalShards := by omega
  have hleaf := leafAt_shard (L := L) h hnodup hsr
  rw [hi, Int.toNat_natCast] at hleaf ⊢
  rw [verifyProof_ok, proof_eq_siblings h htree hlt, ← hleaf, climb_siblings, rootOf,
    Nat.div_eq_of_lt (show i < 2 ^ 4 from hlt)]

/-! Strings that are hashed. -/

def pairBytes (e : Hash × Hash) : List UInt8 := e.1.toList ++ e.2.toList

theorem pairBytes_inj {e e' : Hash × Hash} (h : pairBytes e = pairBytes e') : e = e' := by
  obtain ⟨h₁, h₂⟩ := List.append_inj h (by rw [Vector.length_toList, Vector.length_toList])
  exact Prod.ext (Vector.toList_inj.mp h₁) (Vector.toList_inj.mp h₂)

/-- What is hashed to check a proof. -/
def checkInputs (L : ShardLibs) (i : ℕ) (data : List UInt8) (path : List Hash) :
    List (List UInt8) :=
  data :: (climbed (hashPair L) i (L.sum256 data) path).map pairBytes

/-- What is hashed for the tree on the way up from a shard. -/
def treeInputs (L : ShardLibs) (shards : List ShardResult) (sr : ShardResult) :
    List (List UInt8) :=
  sr.data :: (onPath (hashPair L) 4 (leafAt L shards) sr.index.toNat).map pairBytes

/-- Two different strings, one of each list, have one digest. -/
def Collide (L : ShardLibs) (xs ys : List (List UInt8)) : Prop :=
  ∃ x ∈ xs, ∃ y ∈ ys, x ≠ y ∧ L.sum256 x = L.sum256 y

/-- What is accepted for a shard is the shard with the path of its leaf. -/
theorem verifyProof_binds {tree : MerkleTree} (h : WellIndexed shards)
    (hnodup : (shards.map ShardResult.index).Nodup)
    (htree : buildMerkleTree L shards = .ok tree) (hsr : sr ∈ shards) {data : List UInt8}
    {path : List Hash} (hlen : path.length = 4)
    (hproof : verifyProof L (rootOf L shards) sr.index data ⟨sr.index, path⟩ = .ok ()) :
    data = sr.data ∧ path = tree.path tree.depth sr.index.toNat ∨
      Collide L (checkInputs L sr.index.toNat data path) (treeInputs L shards sr) := by
  have hindex := h.2 sr hsr
  obtain ⟨i, hi⟩ : ∃ i : ℕ, sr.index = i := ⟨sr.index.toNat, by omega⟩
  have hlt : i < erasureTotalShards := by omega
  have hleaf := leafAt_shard (L := L) h hnodup hsr
  have hroot : rootOf L shards = ancestor (hashPair L) 4 (leafAt L shards) (i / 2 ^ 4) := by
    rw [rootOf, Nat.div_eq_of_lt (show i < 2 ^ 4 from hlt)]
  rw [hi, verifyProof_ok, hroot] at hproof
  unfold treeInputs
  rw [hi, Int.toNat_natCast] at hleaf ⊢
  rw [proof_eq_siblings h htree hlt]
  rcases climb_binds hlen hproof with ⟨hhash, hpath⟩ | ⟨⟨u, v⟩, he, hne, heq⟩
  · by_cases hdata : data = sr.data
    · exact .inl ⟨hdata, hpath⟩
    · exact .inr ⟨data, List.mem_cons_self, sr.data, List.mem_cons_self, hdata,
        hhash.trans hleaf⟩
  · obtain ⟨hu, hv⟩ := List.of_mem_zip he
    exact .inr ⟨pairBytes u, List.mem_cons_of_mem _ (List.mem_map_of_mem hu), pairBytes v,
      List.mem_cons_of_mem _ (List.mem_map_of_mem hv), fun hbytes => hne (pairBytes_inj hbytes),
      heq⟩

theorem verifyProof_sound (h : WellIndexed shards)
    (hnodup : (shards.map ShardResult.index).Nodup) (hsr : sr ∈ shards) {data : List UInt8}
    {path : List Hash} (hlen : path.length = 4)
    (hproof : verifyProof L (rootOf L shards) sr.index data ⟨sr.index, path⟩ = .ok ()) :
    data = sr.data ∨
      Collide L (checkInputs L sr.index.toNat data path) (treeInputs L shards sr) :=
  (verifyProof_binds h hnodup (buildMerkleTree_eq L h) hsr hlen hproof).imp_left And.left

end Trees

end Zytherion.MerkleProofs
