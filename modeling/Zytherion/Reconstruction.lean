import Zytherion.ErasureDecoding
import Zytherion.Retrievability
import Zytherion.ShardServer

/-!
# Reading a ciphertext back

`ReconstructCiphertext` takes the shards on its own disk first and asks the listed peers
for those that are missing, until it has twelve. A peer's answer is checked only if it
carries a signature and the proposer's key is known; the Merkle root is not used.

What is taken is a matter of the disk and of the answers. The result is the beginning
of the data of the codeword through the twelve shards, whoever made it.
-/
namespace Zytherion.Reconstruction

open GoCall KeyedStore Application ByteStrings Shards ShardPlacement ShardServer TfheSubmit
open ErasureDecoding Retrievability

/-- A node that reads: its libraries, its disk and what its peers answer when they are
asked for a shard. -/
structure Reader (L : ShardLibs) where
  decoder : Decoder L
  verify : (message signature pubKey : List UInt8) → Bool
  env : Environment
  nodeID : String
  answer : (peer : String) → (index : ℤ) → Except Err HttpResponse

namespace Reader
variable {L : ShardLibs} (R : Reader L) (tfheMeta : TFHEShardMeta)

/-- The check of a fetched shard: a signature that is absent is not wrong. -/
def passes (data sig : List UInt8) : Bool :=
  !(decide (tfheMeta.proposerPubkey.length = dilithiumPublicKeySize) &&
    decide (sig.length = dilithiumSignatureSize) &&
    !R.verify (L.sum256 data).toList sig tfheMeta.proposerPubkey)

/-- The loop over the peers of one shard, up to the first answer that passes. -/
def fetchShard (idx : ℤ) : List String → Option (List UInt8)
  | [] => none
  | peer :: peers =>
      if peer = R.nodeID then fetchShard idx peers
      else
        match fetchShardFromPeer (R.answer peer idx) with
        | .error _ => fetchShard idx peers
        | .ok (data, sig) =>
            if R.passes tfheMeta data sig then some data else fetchShard idx peers

/-- The loop over the shards on the disk. -/
def collectLocal (f : NodeFiles) (commitmentHash : List UInt8) :
    List ℕ → List ShardResult → List ShardResult
  | [], collected => collected
  | idx :: rest, collected =>
      let collected := match f.shards.get (commitmentHash, (idx : ℤ)) with
        | some data => collected ++ [⟨idx, data⟩]
        | none => collected
      if erasureDataShards ≤ collected.length then collected
      else collectLocal f commitmentHash rest collected

/-- The loop over the shards that are not held. What arrives is kept if the disk takes
it. -/
def collectRemote (held : List ℤ) : List ℕ → List ShardResult → DiskExec (List ShardResult)
  | [], collected => pure collected
  | idx :: rest, collected =>
      if erasureDataShards ≤ collected.length then pure collected
      else if (idx : ℤ) ∈ held then collectRemote held rest collected
      else
        match R.fetchShard tfheMeta idx (listed tfheMeta idx) with
        | none => collectRemote held rest collected
        | some data => do
            ignoreErr (storeShard R.env tfheMeta.commitmentHash idx data)
            collectRemote held rest (collected ++ [⟨idx, data⟩])

/-- The shards that are used. -/
def collect : DiskExec (List ShardResult) := do
  let own ← gets fun f =>
    collectLocal f tfheMeta.commitmentHash (List.range erasureTotalShards) []
  if own.length < erasureDataShards then
    R.collectRemote tfheMeta (own.map ShardResult.index) (List.range erasureTotalShards) own
  else pure own

def reconstructCiphertext : Option TFHEShardMeta → DiskExec (List UInt8)
  | none => ofExcept (.error (.plain "distributor: shard meta is nil"))
  | some tfheMeta => do
      let collected ← R.collect tfheMeta
      require (decide (erasureDataShards ≤ collected.length))
        (.plain ("distributor: only collected " ++ toString collected.length ++ "/" ++
          toString erasureDataShards ++ " shards — cannot reconstruct"))
      ofExcept (reconstructFromResults R.decoder collected tfheMeta.originalLen.toNat)

end Reader

/-! What is on offer, and what is taken of it. -/

section Offers
variable {L : ShardLibs} (R : Reader L) (tfheMeta : TFHEShardMeta) (f : NodeFiles)

/-- The shard on the disk. -/
def ownShard (i : ℕ) : Option ShardResult :=
  (f.shards.get (tfheMeta.commitmentHash, (i : ℤ))).map fun data => ⟨i, data⟩

def ownShards : List ShardResult :=
  (List.range erasureTotalShards).filterMap (ownShard tfheMeta f)

/-- What is made of the answer of one peer. -/
def accepted (idx : ℤ) (peer : String) : Option (List UInt8) :=
  if peer = R.nodeID then none
  else
    match fetchShardFromPeer (R.answer peer idx) with
    | .error _ => none
    | .ok (data, sig) => if R.passes tfheMeta data sig then some data else none

/-- The shard of the first listed peer whose answer is accepted, if it is not held. -/
def peerShard (held : List ℤ) (i : ℕ) : Option ShardResult :=
  if (i : ℤ) ∈ held then none
  else ((listed tfheMeta i).findSome? (accepted R tfheMeta i)).map fun data => ⟨i, data⟩

/-- The node's own shards, then its peers' for what is missing. -/
def offers : List ShardResult :=
  ownShards tfheMeta f ++ (List.range erasureTotalShards).filterMap
    (peerShard R tfheMeta ((ownShards tfheMeta f).map ShardResult.index))

/-- The first twelve. -/
def chosen : List ShardResult := (offers R tfheMeta f).take erasureDataShards

end Offers

section Loops
variable {L : ShardLibs} {R : Reader L} {tfheMeta : TFHEShardMeta} {f : NodeFiles}

theorem collectLocal_eq (idxs : List ℕ) {collected : List ShardResult}
    (h : collected.length < erasureDataShards) :
    Reader.collectLocal f tfheMeta.commitmentHash idxs collected =
      (collected ++ idxs.filterMap (ownShard tfheMeta f)).take erasureDataShards := by
  induction idxs generalizing collected with
  | nil =>
      rw [Reader.collectLocal, List.filterMap_nil, List.append_nil, List.take_of_length_le h.le]
  | cons idx rest ih =>
      rw [Reader.collectLocal]
      cases hget : f.shards.get (tfheMeta.commitmentHash, (idx : ℤ)) with
      | none =>
          have hown : ownShard tfheMeta f idx = none := by rw [ownShard, hget]; rfl
          rw [List.filterMap_cons_none hown]
          exact (if_neg (not_le.mpr h)).trans (ih h)
      | some data =>
          have hown : ownShard tfheMeta f idx = some ⟨idx, data⟩ := by rw [ownShard, hget]; rfl
          rw [List.filterMap_cons_some hown, List.append_cons]
          dsimp only
          split_ifs with henough
          · have hlen : (collected ++ [(⟨idx, data⟩ : ShardResult)]).length =
                erasureDataShards := by
              rw [List.length_append, List.length_singleton] at henough ⊢
              omega
            exact (List.take_left' hlen).symm
          · exact ih (not_le.mp henough)

theorem storeShard_ignored (env : Environment) (commitmentHash : List UInt8) (index : ℤ)
    (data : List UInt8) (f : NodeFiles) :
    ∃ t, ignoreErr (storeShard env commitmentHash index data) f = .ok () t := by
  refine NoPanic.ignoreErr ?_ f
  exact .bind (.require _ _) fun _ => .bind (.require _ _) fun _ => .bind (.require _ _) fun _ =>
    .bind (.ofExcept _) fun _ => .modifyStore _

theorem fetchShard_eq (R : Reader L) (tfheMeta : TFHEShardMeta) (idx : ℤ) (peers : List String) :
    R.fetchShard tfheMeta idx peers = peers.findSome? (accepted R tfheMeta idx) := by
  induction peers with
  | nil => rfl
  | cons peer peers ih =>
      rw [Reader.fetchShard, List.findSome?_cons, accepted]
      split_ifs
      · exact ih
      · split
        · exact ih
        · split_ifs
          · rfl
          · exact ih

theorem collectRemote_eq (held : List ℤ) (idxs : List ℕ) {collected : List ShardResult}
    (h : collected.length ≤ erasureDataShards) (f : NodeFiles) :
    ∃ t, R.collectRemote tfheMeta held idxs collected f =
      .ok ((collected ++ idxs.filterMap (peerShard R tfheMeta held)).take erasureDataShards) t := by
  induction idxs generalizing collected f with
  | nil =>
      refine ⟨f, ?_⟩
      rw [Reader.collectRemote, List.filterMap_nil, List.append_nil, List.take_of_length_le h]
      rfl
  | cons idx rest ih =>
      rw [Reader.collectRemote]
      split_ifs with henough hheld
      · exact ⟨f, by rw [List.take_left' (le_antisymm h henough)]; rfl⟩
      · have hpeer : peerShard R tfheMeta held idx = none := if_pos hheld
        rw [List.filterMap_cons_none hpeer]
        exact ih h f
      · have hpeer : peerShard R tfheMeta held idx =
            (R.fetchShard tfheMeta idx (listed tfheMeta idx)).map fun data => ⟨idx, data⟩ := by
          rw [fetchShard_eq]
          exact if_neg hheld
        cases hfetch : R.fetchShard tfheMeta idx (listed tfheMeta idx) with
        | none =>
            rw [hfetch] at hpeer
            rw [List.filterMap_cons_none hpeer]
            exact ih h f
        | some data =>
            rw [hfetch] at hpeer
            have hlen : (collected ++ [(⟨idx, data⟩ : ShardResult)]).length ≤
                erasureDataShards := by
              rw [List.length_append, List.length_singleton]
              omega
            obtain ⟨m, hm⟩ := storeShard_ignored R.env tfheMeta.commitmentHash idx data f
            obtain ⟨t, ht⟩ := ih hlen m
            refine ⟨t, ?_⟩
            rw [List.filterMap_cons_some hpeer, List.append_cons]
            exact (bind_ok _ _).mpr ⟨(), m, hm, ht⟩

/-- The two loops together take the first twelve shards on offer. -/
theorem collect_eq (R : Reader L) (tfheMeta : TFHEShardMeta) (f : NodeFiles) :
    ∃ t, R.collect tfheMeta f = .ok (chosen R tfheMeta f) t := by
  have hlocal : Reader.collectLocal f tfheMeta.commitmentHash (List.range erasureTotalShards) [] =
      (ownShards tfheMeta f).take erasureDataShards := collectLocal_eq _ (by decide)
  simp only [Reader.collect, bind_ok, gets_ok, hlocal, existsAndEq, true_and]
  split_ifs with hfew
  · rw [List.length_take] at hfew
    have hlen : (ownShards tfheMeta f).length ≤ erasureDataShards := by omega
    rw [List.take_of_length_le hlen]
    exact collectRemote_eq _ _ hlen f
  · rw [List.length_take] at hfew
    rw [chosen, offers, List.take_append_of_le_length (by omega)]
    exact ⟨f, rfl⟩

theorem reconstructCiphertext_ok {bytes : List UInt8} :
    (∃ t, R.reconstructCiphertext (some tfheMeta) f = .ok bytes t) ↔
      erasureDataShards ≤ (chosen R tfheMeta f).length ∧
      reconstructFromResults R.decoder (chosen R tfheMeta f) tfheMeta.originalLen.toNat =
        .ok bytes := by
  obtain ⟨m, hm⟩ := collect_eq R tfheMeta f
  simp only [Reader.reconstructCiphertext, bind_ok, hm, Outcome.ok.injEq, require_ok, ofExcept_ok,
    decide_eq_true_eq]
  constructor
  · rintro ⟨_, _, _, ⟨rfl, rfl⟩, _, _, ⟨henough, rfl⟩, hdecoded, rfl⟩
    exact ⟨henough, hdecoded⟩
  · rintro ⟨henough, hdecoded⟩
    exact ⟨m, _, m, ⟨rfl, rfl⟩, (), m, ⟨henough, rfl⟩, hdecoded, rfl⟩

theorem ownShard_index {i : ℕ} {sr : ShardResult} (h : ownShard tfheMeta f i = some sr) :
    sr.index = i := by
  obtain ⟨data, -, rfl⟩ := Option.map_eq_some_iff.mp h
  rfl

theorem peerShard_index {held : List ℤ} {i : ℕ} {sr : ShardResult}
    (h : peerShard R tfheMeta held i = some sr) : sr.index = i ∧ (i : ℤ) ∉ held := by
  unfold peerShard at h
  split_ifs at h with hheld
  obtain ⟨data, -, rfl⟩ := Option.map_eq_some_iff.mp h
  exact ⟨rfl, hheld⟩

/-- Shards picked in the order of their indices have distinct ones in range. -/
theorem numbered_filterMap {g : ℕ → Option ShardResult}
    (h : ∀ i sr, g i = some sr → sr.index = i) :
    Numbered ((List.range erasureTotalShards).filterMap g) where
  nodup := by
    have hindex : ∀ idxs : List ℕ, (idxs.filterMap g).map ShardResult.index =
        (idxs.filter fun i => (g i).isSome).map Int.ofNat := by
      intro idxs
      induction idxs with
      | nil => rfl
      | cons i rest ih =>
          cases hi : g i with
          | none => rw [List.filterMap_cons_none hi, List.filter_cons_of_neg (by simp [hi]), ih]
          | some sr =>
              rw [List.filterMap_cons_some hi, List.filter_cons_of_pos (by simp [hi]),
                List.map_cons, List.map_cons, ih, h i sr hi]
              rfl
    rw [hindex]
    exact (List.nodup_range.filter _).map Int.ofNat_injective
  range := by
    intro sr hsr
    obtain ⟨i, hi, hsome⟩ := List.mem_filterMap.mp hsr
    have hlt := List.mem_range.mp hi
    rw [h i sr hsome]
    omega

theorem offers_numbered : Numbered (offers R tfheMeta f) := by
  have hown : Numbered (ownShards tfheMeta f) :=
    numbered_filterMap fun i sr h => ownShard_index h
  have hpeers := numbered_filterMap (g := peerShard R tfheMeta
    ((ownShards tfheMeta f).map ShardResult.index)) fun i sr h => (peerShard_index h).1
  constructor
  · rw [offers, List.map_append]
    refine hown.nodup.append hpeers.nodup fun k hk hk' => ?_
    obtain ⟨sr, hsr, rfl⟩ := List.mem_map.mp hk'
    obtain ⟨i, -, hi⟩ := List.mem_filterMap.mp hsr
    obtain ⟨hindex, hfresh⟩ := peerShard_index hi
    exact hfresh (hindex ▸ hk)
  · intro sr hsr
    rcases List.mem_append.mp hsr with hsr | hsr
    · exact hown.range sr hsr
    · exact hpeers.range sr hsr

theorem chosen_numbered : Numbered (chosen R tfheMeta f) :=
  offers_numbered.of_sublist (List.take_sublist _ _)

theorem chosen_length : erasureDataShards ≤ (chosen R tfheMeta f).length ↔
    (chosen R tfheMeta f).length = erasureDataShards := by
  constructor
  · exact fun h => le_antisymm (List.length_take_le _ _) h
  · exact fun h => h.ge

/-- What is read: the beginning of the data of the codeword through the twelve shards. -/
theorem reconstructCiphertext_codeword (R : Reader L) (tfheMeta : TFHEShardMeta) (f : NodeFiles)
    (hlen : 0 < tfheMeta.originalLen) (bytes : List UInt8) :
    (∃ t, R.reconstructCiphertext (some tfheMeta) f = .ok bytes t) ↔
      (chosen R tfheMeta f).length = erasureDataShards ∧
      ∃ w, Codeword R.decoder w ∧ Through (chosen R tfheMeta f) w ∧
        (dataOf w).take tfheMeta.originalLen.toNat = bytes := by
  rw [reconstructCiphertext_ok, chosen_length]
  exact and_congr_right fun hcount =>
    reconstructFromResults_ok chosen_numbered hcount (by omega)

/-- A peer other than the node sends the shard, with no signature or with a right one. -/
def Honest (R : Reader L) (tfheMeta : TFHEShardMeta) (peer : String) (sr : ShardResult) : Prop :=
  peer ≠ R.nodeID ∧ ∃ sig, fetchShardFromPeer (R.answer peer sr.index) = .ok (sr.data, sig) ∧
    R.passes tfheMeta sr.data sig = true

theorem unsigned_passes (R : Reader L) (tfheMeta : TFHEShardMeta) (data : List UInt8) :
    R.passes tfheMeta data [] = true := by
  have hsize : ([] : List UInt8).length ≠ dilithiumSignatureSize := by decide
  rw [Reader.passes, decide_eq_false hsize, Bool.and_false, Bool.false_and, Bool.not_false]

theorem Honest.accepted {peer : String} {sr : ShardResult} (h : Honest R tfheMeta peer sr) :
    accepted R tfheMeta sr.index peer = some sr.data := by
  obtain ⟨hself, sig, hfetch, hpass⟩ := h
  rw [Reconstruction.accepted, if_neg hself, hfetch]
  exact if_pos hpass

/-- With nothing on the disk everything on offer comes from the peers. -/
theorem offers_of_empty (hempty : ∀ i, f.shards.get (tfheMeta.commitmentHash, i) = none) :
    offers R tfheMeta f = (List.range erasureTotalShards).filterMap (peerShard R tfheMeta []) := by
  have hown : ownShards tfheMeta f = [] := by
    refine List.filterMap_eq_nil_iff.mpr fun i _ => ?_
    rw [ownShard, hempty]
    rfl
  rw [offers, hown]
  rfl

/-- With twelve honest holders on the lists the loop finds twelve shards, though perhaps
not theirs. -/
theorem chosen_of_honest {shards : List ShardResult} (hnodup : (shards.map ShardResult.index).Nodup)
    (hrange : ∀ sr ∈ shards, 0 ≤ sr.index ∧ sr.index < erasureTotalShards)
    (hempty : ∀ i, f.shards.get (tfheMeta.commitmentHash, i) = none)
    (h : AtLeast erasureDataShards shards fun sr =>
      ∃ peer ∈ listed tfheMeta sr.index, Honest R tfheMeta peer sr) :
    (chosen R tfheMeta f).length = erasureDataShards := by
  obtain ⟨found, hsub, hcount, hfound⟩ := h
  have hindices : found.map ShardResult.index ⊆ (offers R tfheMeta f).map ShardResult.index := by
    intro k hk
    obtain ⟨sr, hsr, rfl⟩ := List.mem_map.mp hk
    have hindex := hrange sr (hsub.subset hsr)
    obtain ⟨i, hi⟩ : ∃ i : ℕ, sr.index = i := ⟨sr.index.toNat, by omega⟩
    obtain ⟨peer, hpeer, hhonest⟩ := hfound sr hsr
    have hfetch : ((listed tfheMeta sr.index).findSome?
        (accepted R tfheMeta sr.index)).isSome = true := by
      rw [List.findSome?_isSome_iff]
      exact ⟨peer, hpeer, by rw [hhonest.accepted]; rfl⟩
    obtain ⟨data, hdata⟩ := Option.isSome_iff_exists.mp hfetch
    rw [hi] at hdata
    have hsent : peerShard R tfheMeta [] i = some ⟨i, data⟩ := by
      rw [peerShard, if_neg List.not_mem_nil, hdata]
      rfl
    rw [offers_of_empty hempty, hi]
    exact List.mem_map.mpr
      ⟨⟨i, data⟩, List.mem_filterMap.mpr ⟨i, List.mem_range.mpr (by omega), hsent⟩, rfl⟩
  have hle := (List.subperm_of_subset ((hsub.map _).nodup hnodup) hindices).length_le
  rw [List.length_map, List.length_map] at hle
  rw [chosen, List.length_take]
  omega

end Loops

/-- The ciphertext, or another string with its digest. -/
def Restores (L : PrivacyLibs) (msg : MsgTFHESubmit) (bytes : List UInt8) : Prop :=
  bytes = msg.ciphertext ∨ bytes ≠ msg.ciphertext ∧ L.sum256 bytes = L.sum256 msg.ciphertext

section Submissions
variable {A : App} {L : PrivacyLibs} {monikers : List String} {n : LocalNode}
  {msg : MsgTFHESubmit} {s t : KVStore} {response : MsgTFHESubmitResponse}
  {shards : List ShardResult}

theorem submitted (h : tfheSubmit A L monikers n msg s = .ok response t)
    (hsplit : split L.toShardLibs msg.ciphertext = .ok shards) :
    0 < msg.ciphertext.length ∧ t.get (tfheMetaKey (commitmentOf L msg)) =
      some (marshalTFHEMeta L (storedMeta L monikers msg n shards)) := by
  obtain ⟨sender, shards', hadmitted, -, -, rfl⟩ := tfheSubmit_ok.mp h
  obtain rfl : shards' = shards := Except.ok.inj (hadmitted.split.symm.trans hsplit)
  refine ⟨lt_of_lt_of_le (by decide) hadmitted.large, ?_⟩
  rw [SubmitRuns.get_meta_recorded, if_pos rfl]

/-- What is read under the metadata of a submission restores its ciphertext exactly if
every codeword through the shards that are taken begins with it. -/
theorem reconstruction_authentic_iff (h : tfheSubmit A L monikers n msg s = .ok response t)
    (hsplit : split L.toShardLibs msg.ciphertext = .ok shards) (R : Reader L.toShardLibs)
    (f : NodeFiles) :
    t.get (tfheMetaKey (commitmentOf L msg)) =
        some (marshalTFHEMeta L (storedMeta L monikers msg n shards)) ∧
      ((∀ bytes f', R.reconstructCiphertext (some (storedMeta L monikers msg n shards)) f =
          .ok bytes f' → Restores L msg bytes) ↔
        ((chosen R (storedMeta L monikers msg n shards) f).length = erasureDataShards →
          ∀ w, Codeword R.decoder w → Through (chosen R (storedMeta L monikers msg n shards) f) w →
            Restores L msg ((dataOf w).take msg.ciphertext.length))) := by
  obtain ⟨hlen, hmeta⟩ := submitted h hsplit
  have hread := reconstructCiphertext_codeword R (storedMeta L monikers msg n shards) f
    (Int.natCast_pos.mpr hlen)
  refine ⟨hmeta, ?_⟩
  constructor
  · intro hreads hcount w hcode hthrough
    obtain ⟨f', hf'⟩ := (hread _).mpr ⟨hcount, w, hcode, hthrough, rfl⟩
    exact hreads _ f' hf'
  · intro hcodes bytes f' hf'
    obtain ⟨hcount, w, hcode, hthrough, rfl⟩ := (hread bytes).mp ⟨f', hf'⟩
    exact hcodes hcount w hcode hthrough

/-- With nothing on the disk and twelve honest holders on the lists, the ciphertext is read
exactly if it is the beginning of a codeword through the shards that are taken. -/
theorem honest_holders_suffice_iff (h : tfheSubmit A L monikers n msg s = .ok response t)
    (hsplit : split L.toShardLibs msg.ciphertext = .ok shards) (R : Reader L.toShardLibs)
    (f : NodeFiles) (hempty : ∀ i, f.shards.get (commitmentOf L msg, i) = none)
    (hhonest : AtLeast erasureDataShards shards fun sr =>
      ∃ peer ∈ listed (storedMeta L monikers msg n shards) sr.index,
        Honest R (storedMeta L monikers msg n shards) peer sr) :
    t.get (tfheMetaKey (commitmentOf L msg)) =
        some (marshalTFHEMeta L (storedMeta L monikers msg n shards)) ∧
      ((∃ f', R.reconstructCiphertext (some (storedMeta L monikers msg n shards)) f =
          .ok msg.ciphertext f') ↔
        ∃ w, Codeword R.decoder w ∧
          Through (chosen R (storedMeta L monikers msg n shards) f) w ∧
          msg.ciphertext <+: dataOf w) := by
  obtain ⟨hlen, hmeta⟩ := submitted h hsplit
  have hcount := chosen_of_honest (R := R) (split_nodup _ hsplit) (split_wellIndexed _ hsplit).2
    hempty hhonest
  refine ⟨hmeta, ?_⟩
  rw [reconstructCiphertext_codeword R _ f (Int.natCast_pos.mpr hlen), and_iff_right hcount]
  refine exists_congr fun w => and_congr_right fun _ => and_congr_right fun _ => ?_
  rw [List.prefix_iff_eq_take]
  exact eq_comm

/-- If all that is taken was made for the submission, nothing else can be read. -/
theorem genuine_codeword {R : Reader L.toShardLibs} {f : NodeFiles} {m : TFHEShardMeta}
    (hsplit : split L.toShardLibs msg.ciphertext = .ok shards)
    (hgenuine : ∀ sr ∈ chosen R m f, sr ∈ shards) :
    (∃ w, Codeword R.decoder w ∧ Through (chosen R m f) w ∧ msg.ciphertext <+: dataOf w) ∧
      ((chosen R m f).length = erasureDataShards → ∀ w, Codeword R.decoder w →
        Through (chosen R m f) w → msg.ciphertext <+: dataOf w) := by
  obtain ⟨w, hcode, hbegin, hthrough⟩ := split_codeword (D := R.decoder) hsplit
  have hchosen : Through (chosen R m f) w := fun i x hx => hthrough i x (hgenuine _ hx)
  refine ⟨⟨w, hcode, hchosen, hbegin⟩, fun hcount w' hcode' hthrough' => ?_⟩
  rw [codeword_unique chosen_numbered hcount hcode' hcode hthrough' hchosen]
  exact hbegin

end Submissions

/-! A code that repeats the data, and a listed peer that sends something else. -/

section Samples
open Devnet SubmitAgreement

def copyLibs : PrivacyLibs :=
  { sampleLibs with
    sum256 := toHash
    encSplit := fun data => .ok (Vector.replicate erasureTotalShards data) }

def copyVerify (w : Vector (List UInt8) erasureTotalShards) : Bool :=
  decide (w[0] ≠ [] ∧ w = Vector.replicate erasureTotalShards w[0])

def copyReconstruct (v : Vector (List UInt8) erasureTotalShards) :
    Except Err (Vector (List UInt8) erasureTotalShards) :=
  match v.toList.find? fun s => !s.isEmpty with
  | none => .error (.plain "too few shards given")
  | some x =>
      if erasureDataShards ≤ present v ∧
          ∀ i : Fin erasureTotalShards, v.get i ≠ [] → v.get i = x then
        .ok (Vector.replicate erasureTotalShards x)
      else .error (.plain "too few shards given")

theorem copyVerify_iff {w : Vector (List UInt8) erasureTotalShards} :
    copyVerify w = true ↔ ∃ x, x ≠ [] ∧ w = Vector.replicate erasureTotalShards x := by
  rw [copyVerify, decide_eq_true_eq]
  constructor
  · exact fun h => ⟨_, h⟩
  · rintro ⟨x, hx, rfl⟩
    rw [Vector.getElem_replicate]
    exact ⟨hx, rfl⟩

theorem copyReconstruct_ok {v w : Vector (List UInt8) erasureTotalShards} :
    copyReconstruct v = .ok w ↔ ∃ x, x ≠ [] ∧ w = Vector.replicate erasureTotalShards x ∧
      erasureDataShards ≤ present v ∧
      ∀ i : Fin erasureTotalShards, v.get i ≠ [] → v.get i = x := by
  unfold copyReconstruct
  constructor
  · intro h
    split at h
    · cases h
    · rename_i x hx
      split_ifs at h with hall
      have hne : x ≠ [] := by simpa using List.find?_some hx
      exact ⟨x, hne, (Except.ok.inj h).symm, hall⟩
  · rintro ⟨x, hne, rfl, henough, hall⟩
    cases hfind : v.toList.find? fun s => !s.isEmpty with
    | none =>
        have hnone : present v = 0 :=
          List.countP_eq_zero.mpr fun s hs => List.find?_eq_none.mp hfind s hs
        rw [hnone] at henough
        cases henough
    | some y =>
        have hy : y ≠ [] := by simpa using List.find?_some hfind
        obtain ⟨i, hi, hget⟩ := List.getElem_of_mem (List.mem_of_find?_eq_some hfind)
        rw [Vector.getElem_toList] at hget
        rw [Vector.length_toList] at hi
        have hfin : v.get ⟨i, hi⟩ = y := hget
        obtain rfl : y = x := hfin.symm.trans (hall ⟨i, hi⟩ (hfin ▸ hy))
        exact if_pos ⟨henough, hall⟩

theorem get_replicate (x : List UInt8) (i : Fin erasureTotalShards) :
    (Vector.replicate erasureTotalShards x).get i = x := by
  rw [← getElem_eq_get, Fin.getElem_fin, Vector.getElem_replicate]

theorem copyVerify_present (w : Vector (List UInt8) erasureTotalShards)
    (h : Except.ok (copyVerify w) = (Except.ok true : Except Err Bool))
    (i : Fin erasureTotalShards) : w.get i ≠ [] := by
  obtain ⟨x, hx, rfl⟩ := copyVerify_iff.mp (Except.ok.inj h)
  rwa [get_replicate]

theorem copyReconstruct_agrees (v w : Vector (List UInt8) erasureTotalShards)
    (h : copyReconstruct v = .ok w) : erasureDataShards ≤ present v ∧
      ∀ i : Fin erasureTotalShards, v.get i ≠ [] → w.get i = v.get i := by
  obtain ⟨x, -, rfl, henough, hall⟩ := copyReconstruct_ok.mp h
  refine ⟨henough, fun i hi => ?_⟩
  rw [hall i hi, get_replicate]

theorem copyReconstruct_complete (v w : Vector (List UInt8) erasureTotalShards)
    (hw : Except.ok (copyVerify w) = (Except.ok true : Except Err Bool))
    (henough : erasureDataShards ≤ present v)
    (hagrees : ∀ i : Fin erasureTotalShards, v.get i ≠ [] → w.get i = v.get i) :
    copyReconstruct v = .ok w := by
  obtain ⟨x, hx, rfl⟩ := copyVerify_iff.mp (Except.ok.inj hw)
  refine copyReconstruct_ok.mpr ⟨x, hx, rfl, henough, fun i hi => ?_⟩
  rw [← hagrees i hi, get_replicate]

theorem copyLibs_verifies (data : List UInt8) (v w : Vector (List UInt8) erasureTotalShards)
    (hdata : data ≠ []) (hv : copyLibs.encSplit data = .ok v) (hw : copyLibs.encEncode v = .ok w) :
    Except.ok (copyVerify w) = (Except.ok true : Except Err Bool) ∧ data <+: dataOf w := by
  obtain rfl := Except.ok.inj hv
  obtain rfl := Except.ok.inj hw
  refine ⟨congrArg Except.ok (copyVerify_iff.mpr ⟨data, hdata, rfl⟩), ?_⟩
  rw [dataOf, Vector.toList_replicate]
  exact List.prefix_append data _

def copyDecoder : Decoder copyLibs.toShardLibs where
  encReconstruct := copyReconstruct
  encVerify w := .ok (copyVerify w)
  verify_present := copyVerify_present
  reconstruct_agrees := copyReconstruct_agrees
  reconstruct_complete := copyReconstruct_complete
  encode_verifies := copyLibs_verifies

def copies (data : List UInt8) : List ShardResult :=
  numbered (Vector.replicate erasureTotalShards data)

theorem mem_copies {data : List UInt8} {sr : ShardResult} :
    sr ∈ copies data ↔ ∃ i : Fin erasureTotalShards, sr = ⟨(i.val : ℤ), data⟩ := by
  simp only [copies, mem_numbered, Fin.getElem_fin, Vector.getElem_replicate]

def onesMsg : MsgTFHESubmit := ⟨devnet.text alice, List.replicate 1024 1⟩

def onesShards : List ShardResult := copies onesMsg.ciphertext

theorem onesMsg_length : onesMsg.ciphertext.length = 1024 := List.length_replicate

theorem onesMsg_admitted : Admitted devnet copyLibs onesMsg ∅ alice onesShards where
  address := devnet.accAddressFromBech32_text alice
  large := by rw [onesMsg_length]; decide
  small := by rw [onesMsg_length]; decide
  quota := by decide
  split := if_neg (by decide)

/-- A node with a key. -/
def proposer : LocalNode :=
  { nodeNamed "beta" calmEnv with
    signingKey := some ⟨List.replicate dilithiumPrivateKeySize 0,
      List.replicate dilithiumPublicKeySize 7, List.length_replicate, List.length_replicate⟩ }

theorem proposer_submits :
    ∃ response t, tfheSubmit devnet copyLibs ["alpha"] proposer onesMsg ∅ = .ok response t := by
  refine ⟨_, _, tfheSubmit_ok.mpr ⟨alice, onesShards, onesMsg_admitted, ⟨rfl, ?_⟩, rfl, rfl⟩⟩
  intro sr hsr _
  obtain ⟨i, rfl⟩ := mem_copies.mp hsr
  have hne : onesMsg.ciphertext ≠ [] := by decide
  exact ⟨hne, rfl, fun _ => rfl⟩

def onesMeta : TFHEShardMeta := storedMeta copyLibs ["alpha"] onesMsg proposer onesShards

theorem listed_onesMeta {sr : ShardResult} (hsr : sr ∈ onesShards) :
    listed onesMeta sr.index = ["alpha", "beta"] := by
  have hget : onesMeta.shardNodeMap.get sr.index = some _ := placementMap_get hsr
  have hnodes : ∀ i : Fin erasureTotalShards, assignedNodes copyLibs.toShardLibs
      (clusterOf ["alpha"] proposer) (commitmentOf copyLibs onesMsg) (i.val : ℤ) =
        ["alpha", "beta"] := by
    decide +kernel
  obtain ⟨i, rfl⟩ := mem_copies.mp hsr
  rw [listed, hget]
  exact hnodes i

/-- A third node, which is sent the same bytes for every shard, without a signature. -/
def thirdNode (sent : String → List UInt8) : Reader copyLibs.toShardLibs where
  decoder := copyDecoder
  verify _ _ _ := true
  env := calmEnv
  nodeID := "gamma"
  answer peer _ := .ok ⟨200, .ok (sent peer), ""⟩

section Answers
variable {sent : String → List UInt8}

theorem thirdNode_honest {peer : String} (hpeer : peer ≠ "gamma")
    (hlen : (sent peer).length = 1024) (idx : ℤ) :
    Honest (thirdNode sent) onesMeta peer ⟨idx, sent peer⟩ := by
  refine ⟨hpeer, [], ?_, unsigned_passes _ _ _⟩
  show Except.ok ((sent peer).take bodyLimit, ([] : List UInt8)) = _
  rw [List.take_of_length_le (by rw [hlen]; decide)]

/-- The first peer on the list is believed. -/
theorem chosen_thirdNode (hlen : (sent "alpha").length = 1024) {sr : ShardResult}
    (hsr : sr ∈ chosen (thirdNode sent) onesMeta ⟨∅, ∅, []⟩) : sr.data = sent "alpha" := by
  have hoffer := List.mem_of_mem_take hsr
  rw [offers_of_empty fun _ => rfl] at hoffer
  obtain ⟨i, hi, hpeer⟩ := List.mem_filterMap.mp hoffer
  rw [peerShard, if_neg List.not_mem_nil] at hpeer
  obtain ⟨data, hfetch, rfl⟩ := Option.map_eq_some_iff.mp hpeer
  have hmem : (⟨(i : ℤ), onesMsg.ciphertext⟩ : ShardResult) ∈ onesShards :=
    mem_copies.mpr ⟨⟨i, List.mem_range.mp hi⟩, rfl⟩
  have hlisted : listed onesMeta (i : ℤ) = ["alpha", "beta"] := listed_onesMeta hmem
  have haccepted : accepted (thirdNode sent) onesMeta (i : ℤ) "alpha" = some (sent "alpha") :=
    (thirdNode_honest (by decide) hlen (i : ℤ)).accepted
  rw [hlisted, List.findSome?_cons_of_isSome (by rw [haccepted]; rfl)] at hfetch
  exact Option.some.inj (hfetch.symm.trans haccepted)

theorem honest_holder (hbeta : sent "beta" = onesMsg.ciphertext) {sr : ShardResult}
    (hsr : sr ∈ onesShards) :
    ∃ peer ∈ listed onesMeta sr.index, Honest (thirdNode sent) onesMeta peer sr := by
  refine ⟨"beta", ?_, ?_⟩
  · rw [listed_onesMeta hsr]
    decide
  · obtain ⟨i, rfl⟩ := mem_copies.mp hsr
    have hhonest := thirdNode_honest (by decide : "beta" ≠ "gamma")
      ((congrArg List.length hbeta).trans onesMsg_length) (i.val : ℤ)
    rwa [hbeta] at hhonest

theorem holders_honest (hbeta : sent "beta" = onesMsg.ciphertext) :
    AtLeast erasureDataShards onesShards fun sr =>
      ∃ peer ∈ listed onesMeta sr.index, Honest (thirdNode sent) onesMeta peer sr :=
  ⟨onesShards, List.Sublist.refl _, by decide, fun _ hsr => honest_holder hbeta hsr⟩

/-- Whatever the first peer sends is what is read. -/
theorem thirdNode_reads (sent : String → List UInt8) (hlen : (sent "alpha").length = 1024)
    (hbeta : sent "beta" = onesMsg.ciphertext) :
    ∃ f, (thirdNode sent).reconstructCiphertext (some onesMeta) ⟨∅, ∅, []⟩ =
      .ok (sent "alpha") f := by
  have hcount := chosen_of_honest (R := thirdNode sent) (split_nodup _ onesMsg_admitted.split)
    (split_wellIndexed _ onesMsg_admitted.split).2 (f := ⟨∅, ∅, []⟩) (fun _ => rfl)
    (holders_honest hbeta)
  have horiginal : onesMeta.originalLen = (1024 : ℕ) := congrArg Nat.cast onesMsg_length
  refine (reconstructCiphertext_codeword (thirdNode sent) onesMeta ⟨∅, ∅, []⟩
    (by rw [horiginal]; decide) (sent "alpha")).mpr
      ⟨hcount, Vector.replicate erasureTotalShards (sent "alpha"), ?_, ?_, ?_⟩
  · have hne : sent "alpha" ≠ [] := List.ne_nil_of_length_eq_add_one hlen
    exact congrArg Except.ok (copyVerify_iff.mpr ⟨_, hne, rfl⟩)
  · intro i x hx
    rw [Fin.getElem_fin, Vector.getElem_replicate]
    exact (chosen_thirdNode hlen hx).symm
  · rw [dataOf, Vector.toList_replicate, horiginal, Int.toNat_natCast]
    exact List.take_left' hlen

theorem chosen_genuine : ∀ sr ∈ chosen (thirdNode fun _ => onesMsg.ciphertext) onesMeta
    ⟨∅, ∅, []⟩, sr ∈ onesShards := by
  intro sr hsr
  obtain ⟨i, hi⟩ := chosen_numbered.exists_fin hsr
  have hdata := chosen_thirdNode onesMsg_length hsr
  refine mem_copies.mpr ⟨i, ?_⟩
  rw [← hi, ← hdata]

end Answers

/-- The first peer sends other bytes than were submitted. -/
def forged (peer : String) : List UInt8 :=
  if peer = "alpha" then List.replicate 1024 2 else onesMsg.ciphertext

theorem forged_alpha : forged "alpha" = List.replicate 1024 2 := if_pos rfl

theorem forged_reads : ∃ f,
    (thirdNode forged).reconstructCiphertext (some onesMeta) ⟨∅, ∅, []⟩ =
      .ok (List.replicate 1024 2) f := by
  have hread := thirdNode_reads forged (by rw [forged_alpha, List.length_replicate])
    (if_neg (by decide))
  rwa [forged_alpha] at hread

theorem forged_ne : List.replicate 1024 2 ≠ onesMsg.ciphertext :=
  fun h => absurd (congrArg List.head? h) (by decide)

theorem forged_bytes_read :
    (∃ response t, tfheSubmit devnet copyLibs ["alpha"] proposer onesMsg ∅ = .ok response t) ∧
      onesMeta.proposerPubkey.length = dilithiumPublicKeySize ∧
      (∃ f, (thirdNode forged).reconstructCiphertext (some onesMeta) ⟨∅, ∅, []⟩ =
        .ok (List.replicate 1024 2) f) ∧
      List.replicate 1024 2 ≠ onesMsg.ciphertext ∧
      (copyLibs.sum256 (List.replicate 1024 2)).toList ≠ onesMeta.commitmentHash :=
  ⟨proposer_submits, List.length_replicate, forged_reads, forged_ne,
    fun h => absurd (congrArg List.head? h) (by decide)⟩

/-- Nobody sends anything else. -/
theorem genuine_bytes_read : ∃ f', (thirdNode fun _ => onesMsg.ciphertext).reconstructCiphertext
      (some (storedMeta copyLibs ["alpha"] onesMsg proposer onesShards)) ⟨∅, ∅, []⟩ =
        .ok onesMsg.ciphertext f' ∧
    Restores copyLibs onesMsg onesMsg.ciphertext := by
  obtain ⟨response, t, hsubmit⟩ := proposer_submits
  obtain ⟨f', hread⟩ := thirdNode_reads (fun _ => onesMsg.ciphertext) onesMsg_length rfl
  refine ⟨f', hread, (reconstruction_authentic_iff hsubmit onesMsg_admitted.split
    (thirdNode fun _ => onesMsg.ciphertext) ⟨∅, ∅, []⟩).2.mpr ?_ _ f' hread⟩
  intro hcount w hcode hthrough
  have hbegin := (genuine_codeword onesMsg_admitted.split chosen_genuine).2 hcount w hcode hthrough
  exact .inl (List.prefix_iff_eq_take.mp hbegin).symm

/-- Every shard has an honest holder on its list, and something else is read. -/
theorem honest_holders_outrun :
    (∃ response t, tfheSubmit devnet copyLibs ["alpha"] proposer onesMsg ∅ = .ok response t) ∧
      (∀ sr ∈ onesShards, ∃ peer ∈ listed onesMeta sr.index,
        Honest (thirdNode forged) onesMeta peer sr) ∧
      ∀ f, (thirdNode forged).reconstructCiphertext (some onesMeta) ⟨∅, ∅, []⟩ ≠
        .ok onesMsg.ciphertext f := by
  refine ⟨proposer_submits, fun sr hsr => honest_holder rfl hsr, fun f hread => ?_⟩
  obtain ⟨f', hforged⟩ := forged_reads
  rw [hread] at hforged
  exact forged_ne (Outcome.ok.inj hforged).1.symm

theorem genuine_holders_suffice :
    ∃ f', (thirdNode fun _ => onesMsg.ciphertext).reconstructCiphertext
        (some (storedMeta copyLibs ["alpha"] onesMsg proposer onesShards)) ⟨∅, ∅, []⟩ =
      .ok onesMsg.ciphertext f' := by
  obtain ⟨response, t, hsubmit⟩ := proposer_submits
  exact (honest_holders_suffice_iff hsubmit onesMsg_admitted.split
    (thirdNode fun _ => onesMsg.ciphertext) ⟨∅, ∅, []⟩ (fun _ => rfl) (holders_honest rfl)).2.mpr
    (genuine_codeword onesMsg_admitted.split chosen_genuine).1

end Samples

end Zytherion.Reconstruction
