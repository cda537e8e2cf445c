import Zytherion.MerkleStep

/-!
# Merkle proofs of any length

`VerifyProof` looks neither at the length of the path nor at the range of the index.
A proof of four siblings for an index below sixteen is accepted for the shard at that
index alone, short of two strings with one digest. At any other index or length
something else is accepted too: the pair of hashes below an inner node, a shard under
an index outside the tree, or a string whose hash is half of a shard.

The server checks both before it calls `VerifyProof`.
-/
namespace Zytherion.ProofLengths

open GoCall Application Shards HashTrees MerkleProofs MerkleStep

/-- `Root`. -/
def root (tree : MerkleTree) : Hash := tree.node 0 0

section Inputs
variable (L : ShardLibs)

/-- A node and its sibling, as the loop of `VerifyProof` orders them. -/
def ordered (idx : ℤ) (current sibling : Hash) : Hash × Hash :=
  if idx.tmod 2 = 0 then (current, sibling) else (sibling, current)

/-- The pairs hashed by the loop. -/
def recomputed : ℤ → Hash → List Hash → List (Hash × Hash)
  | _, _, [] => []
  | idx, current, sibling :: path =>
      ordered idx current sibling ::
        recomputed (idx.tdiv 2) (hashed (hashPair L) (ordered idx current sibling)) path

def proofStrings (i : ℤ) (data : List UInt8) (path : List Hash) : List (List UInt8) :=
  data :: (recomputed L i (L.sum256 data) path).map pairBytes

def treeStrings (shards : List ShardResult) : List (List UInt8) :=
  shards.map ShardResult.data ++ (nodePairs (hashPair L) 4 (leafAt L shards)).map pairBytes

/-- Everything that is hashed to build the tree and to check the proof. -/
def hashedStrings (shards : List ShardResult) (i : ℤ) (data : List UInt8) (path : List Hash) :
    List (List UInt8) :=
  proofStrings L i data path ++ treeStrings L shards

end Inputs

/-- Whatever is accepted with `n` siblings at the index `i` is the shard at that index,
or two of the strings that were hashed have one digest. -/
def SoundAt (i : ℤ) (n : ℕ) : Prop :=
  ∀ (L : ShardLibs) (shards : List ShardResult) (tree : MerkleTree) (data : List UInt8)
    (proof : MerkleProof), WellIndexed shards → (shards.map ShardResult.index).Nodup →
    buildMerkleTree L shards = .ok tree → proof.path.length = n →
    verifyProof L (root tree) i data proof = .ok () →
      (0 ≤ i ∧ i < 16 ∧ ∃ sr ∈ shards, sr.index = i ∧ sr.data = data) ∨
        Collide L (hashedStrings L shards i data proof.path)
          (hashedStrings L shards i data proof.path)

section Loop
variable {L : ShardLibs}

theorem recompute_cons (idx : ℤ) (current sibling : Hash) (path : List Hash) :
    recompute L idx current (sibling :: path) =
      recompute L (idx.tdiv 2) (hashed (hashPair L) (ordered idx current sibling)) path := by
  rw [recompute, ordered]
  split_ifs <;> rfl

theorem ordered_natCast (i : ℕ) (x sibling : Hash) :
    ordered (i : ℤ) x sibling = inOrder i x sibling := by
  unfold ordered inOrder
  rw [Int.tmod_eq_emod_of_nonneg (Int.natCast_nonneg i)]
  split_ifs <;> first | rfl | omega

theorem recomputed_natCast (i : ℕ) (x : Hash) (path : List Hash) :
    recomputed L (i : ℤ) x path = climbed (hashPair L) i x path := by
  induction path generalizing i x with
  | nil => rfl
  | cons sibling path ih =>
      have hdiv : (i : ℤ).tdiv 2 = ((i / 2 : ℕ) : ℤ) := rfl
      rw [recomputed, climbed, ordered_natCast, hdiv, ih]

theorem verifyProof_returns {r : Hash} {i : ℤ} {data : List UInt8} {proof : MerkleProof} :
    verifyProof L r i data proof = .ok () ↔
      proof.leafIndex = i ∧ recompute L i (L.sum256 data) proof.path = r := by
  unfold verifyProof
  by_cases hleaf : proof.leafIndex = i
  · by_cases hroot : recompute L i (L.sum256 data) proof.path = r
    · simp [hleaf, hroot]
    · simp [hleaf, hroot]
  · simp [hleaf]

end Loop

section Trees
variable {L : ShardLibs} {shards : List ShardResult} {sr : ShardResult} {tree : MerkleTree}

theorem root_eq (h : WellIndexed shards) (htree : buildMerkleTree L shards = .ok tree) :
    root tree = rootOf L shards :=
  Vector.toList_inj.mp (rootBytes_eq h htree)

theorem collide_mono {xs xs' ys ys' : List (List UInt8)} (hx : xs ⊆ xs') (hy : ys ⊆ ys')
    (h : Collide L xs ys) : Collide L xs' ys' := by
  obtain ⟨x, hxm, y, hym, hne, heq⟩ := h
  exact ⟨x, hx hxm, y, hy hym, hne, heq⟩

theorem treeInputs_subset (h : WellIndexed shards) (hsr : sr ∈ shards) :
    treeInputs L shards sr ⊆ treeStrings L shards := by
  have hindex := h.2 sr hsr
  have hlt : sr.index.toNat < 2 ^ 4 := by
    have htotal : (erasureTotalShards : ℤ) = 16 := rfl
    omega
  refine List.cons_subset.mpr ⟨List.mem_append_left _ (List.mem_map_of_mem hsr), ?_⟩
  exact List.Subset.trans (List.map_subset _ (onPath_subset_nodePairs hlt))
    (List.subset_append_right _ _)

/-- Proofs of the tree's depth for indices of the tree are sound. -/
theorem soundAt_depth {i : ℤ} (hi : 0 ≤ i ∧ i < 16) : SoundAt i 4 := by
  intro L shards tree data proof hwell hnodup htree hlen hproof
  obtain ⟨sr, hsr, rfl⟩ := exists_shard hwell hnodup hi
  obtain ⟨leaf, path⟩ := proof
  obtain ⟨rfl, -⟩ := verifyProof_returns.mp hproof
  rw [root_eq hwell htree] at hproof
  rcases verifyProof_sound hwell hnodup hsr hlen hproof with hdata | hcollide
  · exact .inl ⟨hi.1, hi.2, sr, hsr, rfl, hdata.symm⟩
  · obtain ⟨n, hn⟩ : ∃ n : ℕ, sr.index = n := ⟨sr.index.toNat, by omega⟩
    have hcheck : checkInputs L sr.index.toNat data path = proofStrings L sr.index data path := by
      rw [checkInputs, proofStrings, hn, Int.toNat_natCast, recomputed_natCast]
    refine .inr (collide_mono ?_ ?_ hcollide)
    · rw [hcheck]
      exact List.subset_append_left _ _
    · exact List.Subset.trans (treeInputs_subset hwell hsr) (List.subset_append_right _ _)

/-- Whatever the hash, the two nodes below the root are accepted with no siblings. -/
theorem accepts_children (h : WellIndexed shards) (htree : buildMerkleTree L shards = .ok tree)
    (i : ℤ) : verifyProof L (root tree) i
      (pairBytes (ancestor (hashPair L) 3 (leafAt L shards) 0,
        ancestor (hashPair L) 3 (leafAt L shards) 1)) ⟨i, []⟩ = .ok () := by
  rw [verifyProof_returns, root_eq h htree, rootOf, ← up_ancestor]
  exact ⟨rfl, rfl⟩

/-- Whatever the hash, a shard is accepted sixteen places further up. -/
theorem accepts_shifted (h : WellIndexed shards) (hnodup : (shards.map ShardResult.index).Nodup)
    (htree : buildMerkleTree L shards = .ok tree) (hsr : sr ∈ shards) :
    verifyProof L (root tree) (sr.index + 16) sr.data
      ⟨sr.index + 16, tree.path tree.depth sr.index.toNat⟩ = .ok () := by
  have haccepted := verifyProof_shard h hnodup htree hsr
  have hindex := h.2 sr hsr
  have hlen := (proof_sizes h htree hsr).2
  obtain ⟨n, hn⟩ : ∃ n : ℕ, sr.index = n := ⟨sr.index.toNat, by omega⟩
  have hshift : sr.index + 16 = ((n + 16 : ℕ) : ℤ) := by omega
  rw [hn, verifyProof_ok] at haccepted
  rw [hn] at hlen
  rw [hshift, root_eq h htree, verifyProof_ok, ← haccepted, hn]
  exact climb_add_two_pow hlen.le

end Trees

/-! A hash of which the digests of a few strings are known. -/

def uniform (v : UInt8) : Hash := Vector.replicate 32 v

def toyByte (first last : UInt8) : UInt8 :=
  if first = last then (if first = 0 then 0 else first + 1) else 1

def toyLibs : ShardLibs where
  sum256 b := uniform (toyByte (b.headD 0) (b.getLastD 0))
  encSplit _ := .error (.plain "not used")
  encEncode _ := .error (.plain "not used")
  signTo _ _ := []

def doubled (v : UInt8) : List UInt8 := pairBytes (uniform v, uniform v)

/-- Half zeros and half nines, the zeros on the left or on the right. -/
def mixed (left : Bool) : List UInt8 :=
  pairBytes (if left then (uniform 0, uniform 9) else (uniform 9, uniform 0))

/-- Sixteen shards with one content, whose digest is the uniform one. The digests of the
inner nodes count up from there. -/
def toyShards (left : Bool) : List ShardResult :=
  (List.range 16).map fun i => ⟨(i : ℤ), mixed left⟩

def known (left : Bool) : List (List UInt8) :=
  [doubled 0, mixed left, doubled 1, doubled 2, doubled 3, doubled 4]

theorem toy_facts (left : Bool) :
    WellIndexed (toyShards left) ∧ ((toyShards left).map ShardResult.index).Nodup ∧
      rootOf toyLibs (toyShards left) = uniform 5 ∧
      (∀ b ∈ treeStrings toyLibs (toyShards left), b ∈ known left) ∧
      (∀ x ∈ known left, ∀ y ∈ known left, toyLibs.sum256 x = toyLibs.sum256 y → x = y) := by
  unfold WellIndexed
  cases left <;> decide +kernel

/-- A string with a path that is accepted, where only known strings are hashed. -/
structure Forged (left : Bool) (i : ℤ) (data : List UInt8) (path : List Hash) : Prop where
  accepted : recompute toyLibs i (toyLibs.sum256 data) path = uniform 5
  strings : ∀ b ∈ proofStrings toyLibs i data path, b ∈ known left

section Forging
variable {left : Bool} {i : ℤ} {data : List UInt8} {path : List Hash}

theorem Forged.not_soundAt (h : Forged left i data path)
    (hnot : ¬(0 ≤ i ∧ i < 16 ∧ data = mixed left)) : ¬SoundAt i path.length := by
  obtain ⟨hwell, hnodup, hroot, htree, hinj⟩ := toy_facts left
  intro hsound
  have haccepted : verifyProof toyLibs (root _) i data ⟨i, path⟩ = .ok () :=
    verifyProof_returns.mpr ⟨rfl, h.accepted.trans
      (hroot.symm.trans (root_eq hwell (buildMerkleTree_eq toyLibs hwell)).symm)⟩
  rcases hsound toyLibs (toyShards left) _ data ⟨i, path⟩ hwell hnodup
    (buildMerkleTree_eq toyLibs hwell) rfl haccepted with
    ⟨hlow, hhigh, sr, hsr, -, hdata⟩ | hcollide
  · obtain ⟨j, -, rfl⟩ := List.mem_map.mp hsr
    exact hnot ⟨hlow, hhigh, hdata.symm⟩
  · obtain ⟨x, hx, y, hy, hne, heq⟩ := hcollide
    have hknown : ∀ b ∈ hashedStrings toyLibs (toyShards left) i data path, b ∈ known left :=
      List.forall_mem_append.mpr ⟨h.strings, htree⟩
    exact hne (hinj x (hknown x hx) y (hknown y hy) heq)

theorem hashPair_uniform (u v : UInt8) :
    hashed (hashPair toyLibs) (uniform u, uniform v) = uniform (toyByte u v) := rfl

/-- A sibling equal to the node may stand on either side. -/
theorem ordered_self (idx : ℤ) (x : Hash) : ordered idx x x = (x, x) := by
  unfold ordered
  split_ifs <;> rfl

theorem recompute_uniform (idx : ℤ) (v : UInt8) (path : List Hash) :
    recompute toyLibs idx (uniform v) (uniform v :: path) =
      recompute toyLibs (idx.tdiv 2) (uniform (toyByte v v)) path := by
  rw [recompute_cons, ordered_self, hashPair_uniform]

theorem recomputed_uniform (idx : ℤ) (v : UInt8) (path : List Hash) :
    recomputed toyLibs idx (uniform v) (uniform v :: path) = (uniform v, uniform v) ::
      recomputed toyLibs (idx.tdiv 2) (uniform (toyByte v v)) path := by
  rw [recomputed, ordered_self, hashPair_uniform]

/-- Siblings equal to the nodes on the last `n` levels. -/
def tower : ℕ → List Hash
  | 0 => []
  | n + 1 => uniform (UInt8.ofNat (4 - n)) :: tower n

theorem tower_length (n : ℕ) : (tower n).length = n := by
  induction n with
  | zero => rfl
  | succ n ih => rw [tower, List.length_cons, ih]

theorem inner_nodes : ∀ n < 4,
    toyByte (UInt8.ofNat (4 - n)) (UInt8.ofNat (4 - n)) = UInt8.ofNat (5 - n) ∧
      ∀ left, doubled (UInt8.ofNat (4 - n)) ∈ known left := by
  decide +kernel

/-- From a node `n` levels below the root up to the root, whatever the index. -/
theorem climb_tower (left : Bool) (idx : ℤ) {n : ℕ} (hn : n ≤ 4) :
    recompute toyLibs idx (uniform (UInt8.ofNat (5 - n))) (tower n) = uniform 5 ∧
      ∀ e ∈ recomputed toyLibs idx (uniform (UInt8.ofNat (5 - n))) (tower n),
        pairBytes e ∈ known left := by
  induction n generalizing idx with
  | zero => exact ⟨rfl, List.forall_mem_nil _⟩
  | succ n ih =>
      obtain ⟨hup, hknown⟩ := inner_nodes n hn
      obtain ⟨hroot, hrest⟩ := ih (idx.tdiv 2) (Nat.le_of_succ_le hn)
      have hnode : 5 - (n + 1) = 4 - n := by omega
      rw [hnode, tower, recompute_uniform, recomputed_uniform, hup]
      exact ⟨hroot, List.forall_mem_cons.mpr ⟨hknown left, hrest⟩⟩

theorem Forged.of_climb {c : UInt8} (hdata : data ∈ known left)
    (hhash : toyLibs.sum256 data = uniform c)
    (h : recompute toyLibs i (uniform c) path = uniform 5 ∧
      ∀ e ∈ recomputed toyLibs i (uniform c) path, pairBytes e ∈ known left) :
    Forged left i data path := by
  rw [← hhash] at h
  exact ⟨h.1, List.forall_mem_cons.mpr ⟨hdata, List.forall_mem_map.mpr h.2⟩⟩

/-- Fewer siblings than levels: the pair below an inner node is accepted. -/
theorem forged_short (i : ℤ) {n : ℕ} (hn : n < 4) :
    Forged true i (doubled (UInt8.ofNat (4 - n))) (tower n) := by
  obtain ⟨hup, hknown⟩ := inner_nodes n hn
  exact .of_climb (hknown true) (congrArg uniform hup) (climb_tower true i hn.le)

/-- As many siblings as levels: a shard is accepted at every index. -/
theorem forged_level (i : ℤ) : Forged true i (mixed true) (tower 4) :=
  .of_climb (by decide) rfl (climb_tower true i (le_refl 4))

/-- A zero sibling next to zero changes nothing. -/
theorem climb_zeros (left : Bool) (k : ℕ) (idx : ℤ)
    (h : recompute toyLibs ((fun j : ℤ => j.tdiv 2)^[k] idx) (uniform 0) path = uniform 5 ∧
      ∀ e ∈ recomputed toyLibs ((fun j : ℤ => j.tdiv 2)^[k] idx) (uniform 0) path,
        pairBytes e ∈ known left) :
    recompute toyLibs idx (uniform 0) (List.replicate k (uniform 0) ++ path) = uniform 5 ∧
      ∀ e ∈ recomputed toyLibs idx (uniform 0) (List.replicate k (uniform 0) ++ path),
        pairBytes e ∈ known left := by
  induction k generalizing idx with
  | zero => exact h
  | succ k ih =>
      obtain ⟨hroot, hrest⟩ := ih (idx.tdiv 2) h
      rw [List.replicate_succ, List.cons_append, recompute_uniform, recomputed_uniform]
      exact ⟨hroot, List.forall_mem_cons.mpr ⟨List.mem_cons_self, hrest⟩⟩

/-- More siblings than levels: a string is accepted whose hash is half of every shard. -/
theorem forged_long (i : ℤ) (k : ℕ) : ∃ left,
    Forged left i (doubled 0) (List.replicate k (uniform 0) ++ uniform 9 :: tower 4) := by
  obtain ⟨idx, hidx⟩ : ∃ idx, (fun j : ℤ => j.tdiv 2)^[k] i = idx := ⟨_, rfl⟩
  refine ⟨decide (idx.tmod 2 = 0), .of_climb List.mem_cons_self rfl (climb_zeros _ k i ?_)⟩
  rw [hidx, recompute_cons, recomputed]
  -- the shards are cut for the side on which the last extra sibling stands
  have hshard : pairBytes (ordered idx (uniform 0) (uniform 9)) =
      mixed (decide (idx.tmod 2 = 0)) := by
    by_cases hside : idx.tmod 2 = 0 <;> simp [ordered, mixed, hside]
  have hleaf : hashed (hashPair toyLibs) (ordered idx (uniform 0) (uniform 9)) = uniform 1 := by
    unfold ordered
    split_ifs <;> rfl
  obtain ⟨hroot, hrest⟩ := climb_tower (decide (idx.tmod 2 = 0)) (idx.tdiv 2) (le_refl 4)
  rw [hleaf]
  refine ⟨hroot, List.forall_mem_cons.mpr ⟨?_, hrest⟩⟩
  rw [hshard]
  exact List.mem_cons_of_mem _ List.mem_cons_self

theorem strings_differ : (∀ n < 4, doubled (UInt8.ofNat (4 - n)) ≠ mixed true) ∧
    ∀ left, doubled 0 ≠ mixed left := by
  decide +kernel

/-- What else is accepted, at each length and index that is not the tree's. -/
theorem not_soundAt {n : ℕ} (h : ¬(n = 4 ∧ 0 ≤ i ∧ i < 16)) : ¬SoundAt i n := by
  rcases lt_trichotomy n 4 with hshort | rfl | hlong
  · have hforged := (forged_short i hshort).not_soundAt
      fun hdata => strings_differ.1 n hshort hdata.2.2
    rwa [tower_length] at hforged
  · exact (forged_level i).not_soundAt fun hdata => h ⟨rfl, hdata.1, hdata.2.1⟩
  · obtain ⟨k, rfl⟩ : ∃ k, n = k + 5 := ⟨n - 5, by omega⟩
    obtain ⟨left, hleft⟩ := forged_long i k
    have hforged := hleft.not_soundAt fun hdata => strings_differ.2 left hdata.2.2
    rwa [List.length_append, List.length_replicate, List.length_cons, tower_length] at hforged

end Forging

/-- `VerifyProof` is sound exactly for paths of the tree's depth and indices in the
tree. -/
theorem verify_proof_sound_iff (i : ℤ) (n : ℕ) : SoundAt i n ↔ n = 4 ∧ 0 ≤ i ∧ i < 16 := by
  constructor
  · intro hsound
    by_contra h
    exact not_soundAt h hsound
  · rintro ⟨rfl, hi⟩
    exact soundAt_depth hi

/-- With no sibling, with an index outside the tree, and with a fifth sibling something
else is accepted, and no two hashed strings share a digest. Two of the three need no
special hash: the nodes below the root are accepted without siblings, and a shard
sixteen places further up. -/
theorem accepts_more : ¬SoundAt 0 0 ∧ ¬SoundAt 16 4 ∧ ¬SoundAt (-1) 4 ∧ ¬SoundAt 0 5 ∧
    ∀ (L : ShardLibs) (shards : List ShardResult) (tree : MerkleTree), WellIndexed shards →
      (shards.map ShardResult.index).Nodup → buildMerkleTree L shards = .ok tree →
      verifyProof L (root tree) 0 (pairBytes (ancestor (hashPair L) 3 (leafAt L shards) 0,
        ancestor (hashPair L) 3 (leafAt L shards) 1)) ⟨0, []⟩ = .ok () ∧
      ∀ sr ∈ shards, verifyProof L (root tree) (sr.index + 16) sr.data
        ⟨sr.index + 16, tree.path tree.depth sr.index.toNat⟩ = .ok () := by
  refine ⟨not_soundAt (by decide), not_soundAt (by decide), not_soundAt (by decide),
    not_soundAt (by decide), ?_⟩
  intro L shards tree hwell hnodup htree
  exact ⟨accepts_children hwell htree 0, fun sr hsr => accepts_shifted hwell hnodup htree hsr⟩

end Zytherion.ProofLengths
