import Zytherion.ByteStrings
import Zytherion.Application
import Mathlib.Data.List.Nodup

/-!
# The shards of a ciphertext

A ciphertext is cut into sixteen shards by a Reed-Solomon code, and a binary
Merkle tree is built over their hashes. The code, the hash and the signatures
over shards are linked libraries.
-/
namespace Zytherion.Shards

open GoCall KeyedStore Application ByteStrings

def erasureDataShards : ℕ := 12
def erasureParityShards : ℕ := 4
def erasureTotalShards : ℕ := erasureDataShards + erasureParityShards
def ciphertextMaxBytes : ℕ := 512 * 1024

structure ShardResult where
  index : ℤ
  data : List UInt8

/-- A digest of SHA-256. -/
abbrev Hash : Type := Vector UInt8 32

def dilithiumPrivateKeySize : ℕ := 4864
def dilithiumPublicKeySize : ℕ := 2592
def dilithiumSignatureSize : ℕ := 4595

/-- SHA-256, the encoder for twelve data and four parity shards, and Dilithium5. -/
structure ShardLibs where
  sum256 : List UInt8 → Hash
  encSplit : List UInt8 → Except Err (Vector (List UInt8) erasureTotalShards)
  encEncode : Vector (List UInt8) erasureTotalShards →
    Except Err (Vector (List UInt8) erasureTotalShards)
  signTo : (privateKey message : List UInt8) → List UInt8

/-- The pieces with their numbers. -/
def numbered {n : ℕ} (pieces : Vector (List UInt8) n) : List ShardResult :=
  pieces.toList.zipIdx.map fun e => ⟨(e.2 : ℤ), e.1⟩

section Splitting
variable (L : ShardLibs)

def split (data : List UInt8) : Except Err (List ShardResult) :=
  if data.isEmpty then .error (.plain "erasure: data must not be empty")
  else
    match L.encSplit data with
    | .error e => .error (.wrap "erasure: Split failed" e)
    | .ok shards =>
        match L.encEncode shards with
        | .error e => .error (.wrap "erasure: Encode (parity computation) failed" e)
        | .ok shards => .ok (numbered shards)

theorem getElem_eq_get {n : ℕ} (pieces : Vector (List UInt8) n) (i : Fin n) :
    pieces[i] = pieces.get i := rfl

theorem mem_numbered {n : ℕ} {pieces : Vector (List UInt8) n} {sr : ShardResult} :
    sr ∈ numbered pieces ↔ ∃ i : Fin n, sr = ⟨(i.val : ℤ), pieces[i]⟩ := by
  simp only [numbered, List.mem_map, Prod.exists, List.mk_mem_zipIdx_iff_getElem?]
  constructor
  · rintro ⟨piece, i, hi, rfl⟩
    obtain ⟨hlt, rfl⟩ := List.getElem?_eq_some_iff.mp hi
    rw [Vector.length_toList] at hlt
    exact ⟨⟨i, hlt⟩, by rw [Vector.getElem_toList]; rfl⟩
  · rintro ⟨i, rfl⟩
    refine ⟨pieces[i], i.val, ?_, rfl⟩
    rw [List.getElem?_eq_getElem (by rw [Vector.length_toList]; exact i.isLt),
      Vector.getElem_toList]
    rfl

/-- The sixteen shards are numbered from zero. -/
theorem split_indices {data : List UInt8} {shards : List ShardResult}
    (h : split L data = .ok shards) :
    shards.map ShardResult.index = (List.range erasureTotalShards).map Int.ofNat := by
  unfold split at h
  split_ifs at h
  · split at h
    · cases h
    · split at h
      · cases h
      · obtain rfl := Except.ok.inj h
        rw [numbered, List.map_map]
        show List.map (Int.ofNat ∘ Prod.snd) _ = _
        rw [← List.map_map, List.zipIdx_map_snd, Vector.length_toList, List.range_eq_range']

theorem split_nodup {data : List UInt8} {shards : List ShardResult}
    (h : split L data = .ok shards) : (shards.map ShardResult.index).Nodup := by
  rw [split_indices L h]
  exact List.nodup_range.map Int.ofNat_injective

/-- Sixteen shards with indices in range. -/
def WellIndexed (shards : List ShardResult) : Prop :=
  shards.length = erasureTotalShards ∧
    ∀ sr ∈ shards, 0 ≤ sr.index ∧ sr.index < erasureTotalShards

theorem split_wellIndexed {data : List UInt8} {shards : List ShardResult}
    (h : split L data = .ok shards) : WellIndexed shards := by
  have hindices := split_indices L h
  constructor
  · have hlen := congrArg List.length hindices
    rwa [List.length_map, List.length_map, List.length_range] at hlen
  · intro sr hsr
    have hmem := List.mem_map_of_mem (f := ShardResult.index) hsr
    rw [hindices] at hmem
    obtain ⟨i, hi, hindex⟩ := List.mem_map.mp hmem
    rw [← hindex]
    exact ⟨Int.natCast_nonneg i, Int.ofNat_lt.mpr (List.mem_range.mp hi)⟩

def hashPair (left right : Hash) : Hash := L.sum256 (left.toList ++ right.toList)

def parentLevel : List Hash → List Hash
  | left :: right :: rest => hashPair L left right :: parentLevel rest
  | _ => []

/-- The levels of the tree, the root's first and the leaves last. -/
def buildLevels : (depth : ℕ) → List Hash → List (List Hash)
  | 0, level => [level]
  | depth + 1, level => buildLevels depth (parentLevel L level) ++ [level]

structure MerkleTree where
  nodes : List (List Hash)
  depth : ℕ
  numLeaves : ℕ

def zeroHash : Hash := Vector.replicate 32 0

/-- The leaves `BuildMerkleTree` starts from. -/
def leafHashes (shards : List ShardResult) : List Hash :=
  shards.foldl (fun leaves sr => leaves.set sr.index.toNat (L.sum256 sr.data))
    (List.replicate erasureTotalShards zeroHash)

def buildMerkleTree (shards : List ShardResult) : Except Err MerkleTree :=
  if shards.length ≠ erasureTotalShards then
    .error (.plain ("merkle: expected " ++ toString erasureTotalShards ++ " shards, got " ++
      toString shards.length))
  else
    match shards.find? fun sr => decide (sr.index < 0 ∨ (erasureTotalShards : ℤ) ≤ sr.index) with
    | some sr => .error (.plain ("merkle: shard index " ++ toString sr.index ++ " out of range"))
    | none =>
        let depth := Nat.log2 erasureTotalShards
        .ok ⟨buildLevels L depth (leafHashes L shards), depth, erasureTotalShards⟩

def MerkleTree.node (t : MerkleTree) (lvl i : ℕ) : Hash := (t.nodes.getD lvl []).getD i zeroHash

def MerkleTree.rootBytes (t : MerkleTree) : List UInt8 := (t.node 0 0).toList

/-- Sibling hashes from the leaf's level up to the one below the root. -/
def MerkleTree.path (t : MerkleTree) : (lvl idx : ℕ) → List Hash
  | 0, _ => []
  | lvl + 1, idx => t.node (lvl + 1) (idx ^^^ 1) :: t.path lvl (idx / 2)

def MerkleTree.proofForShard (t : MerkleTree) (shardIndex : ℤ) : Except Err (List Hash) :=
  if shardIndex < 0 ∨ (t.numLeaves : ℤ) ≤ shardIndex then
    .error (.plain ("merkle: shard index " ++ toString shardIndex ++ " out of range [0, " ++
      toString t.numLeaves ++ ")"))
  else .ok (t.path t.depth shardIndex.toNat)

theorem buildMerkleTree_eq {shards : List ShardResult} (h : WellIndexed shards) :
    buildMerkleTree L shards =
      .ok ⟨buildLevels L 4 (leafHashes L shards), 4, erasureTotalShards⟩ := by
  have hnone : (shards.find? fun sr =>
      decide (sr.index < 0 ∨ (erasureTotalShards : ℤ) ≤ sr.index)) = none := by
    rw [List.find?_eq_none]
    intro sr hsr hbad
    have hindex := h.2 sr hsr
    have hout := of_decide_eq_true hbad
    omega
  rw [buildMerkleTree, if_neg (not_not.mpr h.1), hnone]
  rfl

theorem buildMerkleTree_ok {shards : List ShardResult} (h : WellIndexed shards) :
    ∃ tree, buildMerkleTree L shards = .ok tree ∧ tree.numLeaves = erasureTotalShards :=
  ⟨_, buildMerkleTree_eq L h, rfl⟩

def serializeProof (path : List Hash) : List UInt8 := path.flatMap Vector.toList

end Splitting

end Zytherion.Shards
