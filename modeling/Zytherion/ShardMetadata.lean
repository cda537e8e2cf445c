import Zytherion.GenesisExport

/-!
# Shard metadata on the chain

The metadata of a submission is stored as JSON: the hash, the root and the key in
hexadecimal, the numbers of the shards as decimal texts, in the order of the texts.
The decoder reads each part back with a function of its own. Both walk a map, in an
order that the language leaves open.
-/
namespace Zytherion.ShardMetadata

open GoCall KeyedStore Application ByteStrings ShardPlacement TfheSubmit SubmitAgreement
open GenesisExport

/-! Hexadecimal text read by `fmt.Sscanf`. -/

/-- Pairs of digits as far as there are any; a digit without a second one is an error. -/
def scanBytes : List Char → Option (List UInt8)
  | [] => some []
  | [c] => if (hexValue c).isSome then none else some []
  | high :: low :: rest =>
      match hexValue high, hexValue low with
      | none, _ => some []
      | some _, none => none
      | some h, some l => (scanBytes rest).map (UInt8.ofNat (16 * h + l) :: ·)

/-- `fmt.Sscanf` with `%x`: what stood in the variable stays there on an error, a line
break among the leading spaces and a text without digits included. -/
def sscanfHex (s : String) (initial : List UInt8) : List UInt8 :=
  if (s.toList.takeWhile isSpace).any (fun c => c.toNat == 10) then initial
  else
    match scanBytes (s.toList.dropWhile isSpace) with
    | none => initial
    | some bytes => if bytes.isEmpty then initial else bytes

theorem scanBytes_of_decodeDigits {cs : List Char} {bytes : List UInt8}
    (h : decodeDigits cs = some bytes) : scanBytes cs = some bytes := by
  induction cs using decodeDigits.induct generalizing bytes with
  | case1 => exact h
  | case2 => cases h
  | case3 high low rest x y tail hrest hlow hhigh ih =>
      simp only [decodeDigits, hhigh, hlow, hrest, Option.some.injEq] at h
      simp only [scanBytes, hhigh, hlow, ih hrest, Option.map_some, h]
  | case4 high low rest hnone ih =>
      rw [decodeDigits] at h
      split at h
      · exact absurd ‹_› (hnone _ _ _ ‹_› ‹_›)
      · cases h

theorem isSpace_of_hexValue {c : Char} (h : (hexValue c).isSome) : isSpace c = false := by
  have hrange : 48 ≤ c.toNat ∧ c.toNat ≤ 57 ∨ 97 ≤ c.toNat ∧ c.toNat ≤ 102 ∨
      65 ≤ c.toNat ∧ c.toNat ≤ 70 := by
    rw [hexValue] at h
    split_ifs at h with hdigit hlower hupper
    · exact Or.inl hdigit
    · exact Or.inr (Or.inl hlower)
    · exact Or.inr (Or.inr hupper)
    · cases h
  simp only [isSpace, List.mem_cons, List.not_mem_nil, or_false, Bool.or_eq_false_iff,
    decide_eq_false_iff_not, Bool.and_eq_false_iff]
  omega

/-- A hash reads back, unless it is empty. -/
theorem sscanfHex_encodeToString {b : List UInt8} (hb : b ≠ []) (initial : List UInt8) :
    sscanfHex (encodeToString b) initial = b := by
  have hscan : scanBytes (encodeToString b).toList = some b :=
    scanBytes_of_decodeDigits (decodeString_encodeToString b)
  have hspaces : ∀ c ∈ (encodeToString b).toList, ¬ isSpace c = true := fun c hc => by
    rw [isSpace_of_hexValue (encodeToString_digits b c hc)]
    exact Bool.false_ne_true
  have htake : (encodeToString b).toList.takeWhile isSpace = [] := by
    cases hcs : (encodeToString b).toList with
    | nil => rfl
    | cons c rest =>
        exact List.takeWhile_cons_of_neg (hspaces c (hcs ▸ List.mem_cons_self))
  have hdrop : (encodeToString b).toList.dropWhile isSpace = (encodeToString b).toList := by
    have happend := List.takeWhile_append_dropWhile (p := isSpace) (l := (encodeToString b).toList)
    rwa [htake, List.nil_append] at happend
  rw [sscanfHex, htake, hdrop, hscan]
  simp [hb]

/-! The stored form. -/

/-- What the source's types can hold: an `int` for the length, a map for the places. -/
structure HeldJSON (j : ShardMetaJSON) : Prop where
  length : IsInt j.originalLen
  keys : (j.shardNodeMap.map Prod.fst).Nodup

structure Held (tfheMeta : TFHEShardMeta) : Prop where
  length : IsInt tfheMeta.originalLen
  keys : ∀ i nodes, tfheMeta.shardNodeMap.get i = some nodes → IsInt i

/-- The same metadata: the order of a map's entries is not part of it. -/
structure Same (m m' : TFHEShardMeta) : Prop where
  commitmentHash : m.commitmentHash = m'.commitmentHash
  originalLen : m.originalLen = m'.originalLen
  shardNodeMap : ∀ i, m.shardNodeMap.get i = m'.shardNodeMap.get i
  merkleRoot : m.merkleRoot = m'.merkleRoot
  proposerPubkey : m.proposerPubkey = m'.proposerPubkey

/-- The JSON decoder, which reads back what was encoded, and the order in which a
decoded map is walked. -/
structure JSONDecoder (L : PrivacyLibs) where
  unmarshal : List UInt8 → Option ShardMetaJSON
  unmarshal_marshal : ∀ j, HeldJSON j → unmarshal (L.marshal j) = some j
  ranged : List (String × List String) → List (String × List String)
  ranged_perm : ∀ entries, (ranged entries).Perm entries

/-- One entry of the decoded map; a key that is no number is passed over. -/
def addPlace (m : Store ℤ (List String)) (entry : String × List String) :
    Store ℤ (List String) :=
  match atoi entry.1 with
  | none => m
  | some idx => m.set idx entry.2

def placesOf (entries : List (String × List String)) : Store ℤ (List String) :=
  entries.foldl addPlace ∅

section Decoding
variable {L : PrivacyLibs} (D : JSONDecoder L)

def decodeMeta (j : ShardMetaJSON) : TFHEShardMeta where
  commitmentHash := sscanfHex j.commitmentHash
    (List.replicate (j.commitmentHash.utf8ByteSize / 2) 0)
  originalLen := j.originalLen
  shardNodeMap := placesOf (D.ranged j.shardNodeMap)
  merkleRoot := (decodeString j.merkleRoot).getD []
  proposerPubkey := (decodeString j.proposerPubkey).getD []

def unmarshalTFHEMeta (bz : List UInt8) : Option TFHEShardMeta :=
  (D.unmarshal bz).map (decodeMeta D)

end Decoding

/-- The modules linked with this decoder. -/
def decoding (L : Libs) (D : JSONDecoder L.shards) : Libs :=
  { L with unmarshalTFHEMeta := unmarshalTFHEMeta D }

/-! Encoded maps. -/

section Maps
variable {m m' : Store ℤ (List String)}

theorem mapEntries_perm : (mapEntries m).Perm (m.entries.map fun e => (toString e.1, e.2)) :=
  List.perm_insertionSort _ _

theorem mapEntries_keys : ((mapEntries m).map Prod.fst).Nodup := by
  have hkeys : (m.entries.map fun e => (toString e.1, e.2)).map Prod.fst =
      m.keys.map (toString : ℤ → String) := by
    rw [AList.keys, List.keys, List.map_map, List.map_map]
    rfl
  rw [(mapEntries_perm.map Prod.fst).nodup_iff, hkeys]
  exact m.keys_nodup.map fun _ _ => toString_int_inj

theorem mapEntries_sorted : (mapEntries m).Pairwise fun a b => a.1 ≤ b.1 :=
  List.pairwise_insertionSort _ _

/-- A map has one encoded form. -/
theorem mapEntries_congr (h : ∀ i, m.get i = m'.get i) : mapEntries m = mapEntries m' := by
  have hmem : ∀ e, e ∈ mapEntries m ↔ e ∈ mapEntries m' := fun e => by
    have hkey : ∀ {m : Store ℤ (List String)}, e ∈ mapEntries m → ∃ i : ℤ, e = (toString i, e.2) :=
      fun he => by
        obtain ⟨entry, -, rfl⟩ := List.mem_map.mp (mapEntries_perm.subset he)
        exact ⟨entry.1, rfl⟩
    constructor
    · intro he
      obtain ⟨i, hi⟩ := hkey he
      rw [hi, mem_mapEntries] at he ⊢
      exact (h i).symm.trans he
    · intro he
      obtain ⟨i, hi⟩ := hkey he
      rw [hi, mem_mapEntries] at he ⊢
      exact (h i).trans he
  refine List.Perm.eq_of_pairwise ?_ mapEntries_sorted mapEntries_sorted
    ((List.perm_ext_iff_of_nodup mapEntries_keys.of_map mapEntries_keys.of_map).mpr hmem)
  intro a b ha hb hab hba
  exact List.inj_on_of_nodup_map mapEntries_keys ha ((hmem b).mpr hb) (le_antisymm hab hba)

/-- Entries with distinct numbers as keys are read in any order. -/
theorem placesOf_get {entries : List (String × List String)}
    (hints : ∀ e ∈ entries, ∃ i, IsInt i ∧ e.1 = toString i)
    (hkeys : (entries.map Prod.fst).Nodup) (i : ℤ) (nodes : List String) :
    (placesOf entries).get i = some nodes ↔ (toString i, nodes) ∈ entries := by
  -- The entries are taken from the end: the last one is written over the others.
  induction entries using List.reverseRecOn with
  | nil => simp [placesOf]
  | append_singleton rest last ih =>
      obtain ⟨idx, hidx, hlast⟩ := hints last (List.mem_append_right _ List.mem_cons_self)
      rw [List.map_append, List.map_singleton, List.nodup_append] at hkeys
      have hrest := ih (fun e he => hints e (List.mem_append_left _ he)) hkeys.1
      have hstep : placesOf (rest ++ [last]) = (placesOf rest).set idx last.2 := by
        rw [placesOf, List.foldl_append, List.foldl_cons, List.foldl_nil, addPlace, hlast,
          atoi_toString hidx]
        rfl
      rw [hstep, Store.get_set, List.mem_append, List.mem_singleton]
      split_ifs with heq
      · subst heq
        have hnew : (toString i, nodes) ∉ rest := fun hmem =>
          hkeys.2.2 _ (List.mem_map_of_mem hmem) _ (List.mem_singleton.mpr rfl) hlast.symm
        rw [or_iff_right hnew, ← hlast, Prod.ext_iff, Option.some.injEq]
        exact ⟨fun h => ⟨rfl, h.symm⟩, fun h => h.2.symm⟩
      · have hother : (toString i, nodes) ≠ last := fun h =>
          heq (toString_int_inj ((congrArg Prod.fst h).trans hlast))
        rw [or_iff_left hother]
        exact hrest

end Maps

section Storage
variable {L : PrivacyLibs} {D : JSONDecoder L} {m m' : TFHEShardMeta}

theorem metaJSON_held (h : Held m) : HeldJSON (metaJSON m) := ⟨h.length, mapEntries_keys⟩

theorem metaJSON_congr (h : Same m m') : metaJSON m = metaJSON m' := by
  rw [metaJSON, metaJSON, h.commitmentHash, h.originalLen, mapEntries_congr h.shardNodeMap,
    h.merkleRoot, h.proposerPubkey]

/-- The map reads back, whatever order it is walked in. -/
theorem places_get (h : Held m) (i : ℤ) :
    (placesOf (D.ranged (mapEntries m.shardNodeMap))).get i = m.shardNodeMap.get i := by
  have hperm := D.ranged_perm (mapEntries m.shardNodeMap)
  have hints : ∀ e ∈ D.ranged (mapEntries m.shardNodeMap), ∃ i, IsInt i ∧ e.1 = toString i := by
    intro e he
    obtain ⟨entry, hentry, rfl⟩ := List.mem_map.mp (mapEntries_perm.subset (hperm.subset he))
    exact ⟨entry.1, h.keys entry.1 entry.2 (AList.mem_lookup_iff.mpr hentry), rfl⟩
  have hkeys := (hperm.map Prod.fst).nodup_iff.mpr mapEntries_keys
  ext nodes
  rw [placesOf_get hints hkeys, hperm.mem_iff, mem_mapEntries]

theorem decodeMeta_metaJSON (h : Held m) (hhash : m.commitmentHash ≠ []) :
    Same (decodeMeta D (metaJSON m)) m where
  commitmentHash := sscanfHex_encodeToString hhash _
  originalLen := rfl
  shardNodeMap := places_get h
  merkleRoot := congrArg (Option.getD · []) (decodeString_encodeToString m.merkleRoot)
  proposerPubkey := congrArg (Option.getD · []) (decodeString_encodeToString m.proposerPubkey)

theorem tfheMetaKey_inj {h h' : List UInt8} (heq : tfheMetaKey h = tfheMetaKey h') : h = h' :=
  List.append_cancel_left heq

theorem setTFHEMeta_eq (hhash : m.commitmentHash ≠ []) (s : KVStore) :
    setTFHEMeta L m s =
      .ok () (s.set (tfheMetaKey m.commitmentHash) (marshalTFHEMeta L m)) := by
  have hnonempty : m.commitmentHash.isEmpty = false := List.isEmpty_eq_false_iff.mpr hhash
  rw [setTFHEMeta, hnonempty]
  rfl

end Storage

/-- Metadata with a hash is stored and reads back, the same bytes are stored in whatever
order its map is walked, and what is stored under other hashes stays. -/
theorem stored_meta_reads_back (L : Libs) (D : JSONDecoder L.shards) (m : TFHEShardMeta)
    (hheld : Held m) (hhash : m.commitmentHash ≠ []) (s : KVStore) :
    ∃ t, setTFHEMeta L.shards m s = .ok () t ∧
      t.get (tfheMetaKey m.commitmentHash) = some (marshalTFHEMeta L.shards m) ∧
      (∃ m', getTFHEMeta (decoding L D) m.commitmentHash t = some m' ∧ Same m' m) ∧
      (∀ m', Same m' m → marshalTFHEMeta L.shards m' = marshalTFHEMeta L.shards m) ∧
      ∀ other, other ≠ m.commitmentHash →
        t.get (tfheMetaKey other) = s.get (tfheMetaKey other) ∧
        getTFHEMeta (decoding L D) other t = getTFHEMeta (decoding L D) other s := by
  have hread := D.unmarshal_marshal (metaJSON m) (metaJSON_held hheld)
  refine ⟨_, setTFHEMeta_eq hhash s, Store.get_set_self _ _ _, ?_, ?_, ?_⟩
  · refine ⟨decodeMeta D (metaJSON m), ?_, decodeMeta_metaJSON hheld hhash⟩
    rw [getTFHEMeta, Store.get_set_self]
    exact congrArg (Option.map (decodeMeta D)) hread
  · exact fun m' hsame => congrArg L.shards.marshal (metaJSON_congr hsame)
  · intro other hother
    have hget := Store.get_set_ne s (marshalTFHEMeta L.shards m)
      fun heq => hother (tfheMetaKey_inj heq)
    exact ⟨hget, congrArg (Option.bind · (unmarshalTFHEMeta D)) hget⟩

/-- A decoder for any encoder, which walks maps backwards. -/
noncomputable def inverseDecoder (L : PrivacyLibs) : JSONDecoder L where
  unmarshal := Function.partialInv L.marshal
  unmarshal_marshal j _ := Function.partialInv_left L.marshal_inj j
  ranged := List.reverse
  ranged_perm := List.reverse_perm

def twoShards : TFHEShardMeta where
  commitmentHash := [7]
  originalLen := 5
  shardNodeMap := ((∅ : Store ℤ (List String)).set 3 ["alpha"]).set (-1) ["beta", "alpha"]
  merkleRoot := [1, 2]
  proposerPubkey := []

theorem twoShards_held : Held twoShards := by
  refine ⟨by decide, fun i nodes hget => ?_⟩
  rw [twoShards, Store.get_set, Store.get_set] at hget
  split_ifs at hget with hlast hfirst
  · rw [hlast]
    decide
  · rw [hfirst]
    decide
  · cases hget

theorem two_shards_read_back : ∃ t, setTFHEMeta moduleLibs.shards twoShards ∅ = .ok () t ∧
    ∃ m', getTFHEMeta (decoding moduleLibs (inverseDecoder _)) twoShards.commitmentHash t =
      some m' ∧ Same m' twoShards := by
  obtain ⟨t, hset, -, hread, -⟩ := stored_meta_reads_back moduleLibs (inverseDecoder _) twoShards
    twoShards_held (by decide) ∅
  exact ⟨t, hset, hread⟩

end Zytherion.ShardMetadata
