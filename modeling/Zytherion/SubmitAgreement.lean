import Zytherion.TfheSubmit
import Zytherion.Devnet

/-!
# One submission at two nodes

Two nodes with the same state execute the same submission. What is refused by
the chain is refused at both. Otherwise they agree exactly if neither can
distribute the shards, or both can, name the same key and give every shard the
same places; the places depend on the name of the node and on the names in its
environment.
-/
namespace Zytherion.SubmitAgreement

open GoCall KeyedStore Application ByteStrings Shards ShardPlacement TfheSubmit

section TwoNodes
variable {A : App} {L : PrivacyLibs} {monikers : List String} {msg : MsgTFHESubmit} {s : KVStore}

theorem mem_mapEntries {m : Store ℤ (List String)} {i : ℤ} {nodes : List String} :
    (toString i, nodes) ∈ mapEntries m ↔ m.get i = some nodes := by
  rw [mapEntries, List.mem_insertionSort, List.mem_map]
  constructor
  · rintro ⟨⟨j, nodes'⟩, hmem, heq⟩
    obtain ⟨hkey, rfl⟩ := Prod.mk.inj heq
    rw [← toString_int_inj hkey]
    exact AList.mem_lookup_iff.mpr hmem
  · intro h
    exact ⟨⟨i, nodes⟩, AList.mem_lookup_iff.mp h, rfl⟩

theorem mapEntries_get {m m' : Store ℤ (List String)} (h : mapEntries m = mapEntries m') (i : ℤ) :
    m.get i = m'.get i := by
  ext nodes
  rw [← mem_mapEntries, h, mem_mapEntries]

/-- Every shard of a submission has the same nodes in both clusters. -/
def SamePlacement (L : PrivacyLibs) (commitmentHash : List UInt8) (shards : List ShardResult)
    (cluster cluster' : List String) : Prop :=
  ∀ sr ∈ shards, assignedNodes L.toShardLibs cluster commitmentHash sr.index =
    assignedNodes L.toShardLibs cluster' commitmentHash sr.index

/-- The metadata of two nodes are encoded alike if they name the same key and the
same places. -/
theorem storedMeta_encoded {n n' : LocalNode} {shards : List ShardResult} :
    marshalTFHEMeta L (storedMeta L monikers msg n shards) =
      marshalTFHEMeta L (storedMeta L monikers msg n' shards) ↔
    n.distributor.proposerPubkey = n'.distributor.proposerPubkey ∧
      SamePlacement L (commitmentOf L msg) shards (clusterOf monikers n)
        (clusterOf monikers n') := by
  constructor
  · intro h
    have hjson := L.marshal_inj h
    refine ⟨encodeToString_inj (congrArg ShardMetaJSON.proposerPubkey hjson), fun sr hsr => ?_⟩
    have hget := mapEntries_get (congrArg ShardMetaJSON.shardNodeMap hjson) sr.index
    rw [storedMeta, storedMeta, placementMap_get hsr, placementMap_get hsr] at hget
    exact Option.some.inj hget
  · rintro ⟨hpubkey, hplacement⟩
    have hmap : placementMap L.toShardLibs (clusterOf monikers n) (commitmentOf L msg) shards =
        placementMap L.toShardLibs (clusterOf monikers n') (commitmentOf L msg) shards :=
      List.foldl_ext _ _ _ fun m sr hsr => by rw [hplacement sr hsr]
    rw [storedMeta, storedMeta, hpubkey, hmap]

/-- The store of a submission determines the metadata in it. -/
theorem recorded_eq_iff {sender : AccAddress} {m m' : TFHEShardMeta} :
    recorded L msg sender m s = recorded L msg sender m' s ↔
      marshalTFHEMeta L m = marshalTFHEMeta L m' := by
  constructor
  · intro h
    have hget := congrArg (Store.get · (tfheMetaKey (commitmentOf L msg))) h
    simp only [recorded, setTFHEQuota, Store.get_set_ne _ _ (tfheMetaKey_ne_tfheQuotaKey _ _),
      Store.get_set_ne _ _ (tfheMetaKey_ne_commitmentKey _ _), Store.get_set_self,
      Option.some.injEq] at hget
    exact hget
  · intro h
    rw [recorded, recorded, h]

/-- Both calls succeed or both fail, and they leave the same store behind. -/
def SameEffect {α : Type} (x y : PrivacyExec α) (s : KVStore) : Prop :=
  (x s).returned.isSome = (y s).returned.isSome ∧ commit x s = commit y s

/-- Neither node can distribute the shards, or both can, with the same key and the
same places for every shard. -/
def Alike (L : PrivacyLibs) (monikers : List String) (commitmentHash : List UInt8)
    (shards : List ShardResult) (n n' : LocalNode) : Prop :=
  (¬ Ready L monikers n commitmentHash shards ∧ ¬ Ready L monikers n' commitmentHash shards) ∨
    (Ready L monikers n commitmentHash shards ∧ Ready L monikers n' commitmentHash shards ∧
      n.distributor.proposerPubkey = n'.distributor.proposerPubkey ∧
      SamePlacement L commitmentHash shards (clusterOf monikers n) (clusterOf monikers n'))

theorem admitted_sameEffect_iff {sender : AccAddress} {shards : List ShardResult} {n n' : LocalNode}
    (h : Admitted A L msg s sender shards) :
    SameEffect (tfheSubmit A L monikers n msg) (tfheSubmit A L monikers n' msg) s ↔
      Alike L monikers (commitmentOf L msg) shards n n' := by
  unfold SameEffect Alike
  by_cases hn : Ready L monikers n (commitmentOf L msg) shards <;>
    by_cases hn' : Ready L monikers n' (commitmentOf L msg) shards
  · rw [(h.ready_effect hn).1, (h.ready_effect hn').1, (h.ready_effect hn).2,
      (h.ready_effect hn').2, recorded_eq_iff, storedMeta_encoded]
    simp [hn, hn']
  · rw [(h.ready_effect hn).1, (h.unready_effect hn').1]
    simp [hn, hn']
  · rw [(h.unready_effect hn).1, (h.ready_effect hn').1]
    simp [hn, hn']
  · rw [(h.unready_effect hn).1, (h.unready_effect hn').1, (h.unready_effect hn).2,
      (h.unready_effect hn').2]
    simp [hn, hn']

/-- A message that is not admitted fails at every node. One that is admitted has
the same effect at two nodes exactly if they are alike. -/
theorem submission_same_iff (A : App) (L : PrivacyLibs) (monikers : List String)
    (msg : MsgTFHESubmit) (s : KVStore) (n n' : LocalNode) :
    SameEffect (tfheSubmit A L monikers n msg) (tfheSubmit A L monikers n' msg) s ↔
      ∀ sender shards, Admitted A L msg s sender shards →
        Alike L monikers (commitmentOf L msg) shards n n' := by
  by_cases hadmitted : ∃ sender shards, Admitted A L msg s sender shards
  · obtain ⟨sender, shards, h⟩ := hadmitted
    rw [admitted_sameEffect_iff h]
    constructor
    · intro halike sender' shards' h'
      obtain ⟨rfl, rfl⟩ := h.unique h'
      exact halike
    · intro halike
      exact halike sender shards h
  · have hfails : ∀ m : LocalNode, ∀ a t, tfheSubmit A L monikers m msg s ≠ .ok a t := by
      intro m a t hok
      obtain ⟨sender, shards, h, -⟩ := tfheSubmit_ok.mp hok
      exact hadmitted ⟨sender, shards, h⟩
    have hn := failed_effect (hfails n)
    have hn' := failed_effect (hfails n')
    exact iff_of_true ⟨hn.1.trans hn'.1.symm, hn.2.trans hn'.2.symm⟩
      fun sender shards h => absurd ⟨sender, shards, h⟩ hadmitted

end TwoNodes

section Samples
open Devnet

/-- A list with a mark before each member and another one at its end. -/
def encodeList {α : Type} (enc : α → List UInt8) : List α → List UInt8
  | [] => [0]
  | a :: rest => 1 :: (enc a ++ encodeList enc rest)

def encodeText (text : String) : List UInt8 := encodeList (fun b => [b]) (utf8 text)

/-- The fields one after another. -/
def encodeMeta (j : ShardMetaJSON) : List UInt8 :=
  encodeText j.commitmentHash ++ (encodeText (toString j.originalLen) ++
    (encodeList (fun e => encodeText e.1 ++ encodeList encodeText e.2) j.shardNodeMap ++
      (encodeText j.merkleRoot ++ encodeText j.proposerPubkey)))

/-- A value can be read from the start of a string. -/
def Delimited {α : Type} (enc : α → List UInt8) : Prop :=
  ∀ a b u v, enc a ++ u = enc b ++ v → a = b ∧ u = v

theorem Delimited.list {α : Type} {enc : α → List UInt8} (h : Delimited enc) :
    Delimited (encodeList enc) := by
  intro l
  induction l with
  | nil =>
      intro l' u v heq
      cases l' with
      | nil => exact ⟨rfl, (List.cons.inj heq).2⟩
      | cons b rest => exact absurd (List.cons.inj heq).1 (by decide)
  | cons a rest ih =>
      intro l' u v heq
      cases l' with
      | nil => exact absurd (List.cons.inj heq).1 (by decide)
      | cons b rest' =>
          have htail : enc a ++ encodeList enc rest ++ u = enc b ++ encodeList enc rest' ++ v :=
            (List.cons.inj heq).2
          rw [List.append_assoc, List.append_assoc] at htail
          obtain ⟨rfl, hrest⟩ := h a b _ _ htail
          obtain ⟨rfl, huv⟩ := ih rest' u v hrest
          exact ⟨rfl, huv⟩

theorem encodeText_delimited : Delimited encodeText := by
  have hbytes : Delimited fun b : UInt8 => [b] := fun _ _ _ _ heq => List.cons.inj heq
  intro a b u v heq
  obtain ⟨htext, huv⟩ := hbytes.list _ _ _ _ heq
  exact ⟨utf8_inj htext, huv⟩

theorem encodeMeta_inj : Function.Injective encodeMeta := by
  have hentry : Delimited fun e : String × List String =>
      encodeText e.1 ++ encodeList encodeText e.2 := by
    intro e f u v heq
    dsimp only at heq
    rw [List.append_assoc, List.append_assoc] at heq
    obtain ⟨hkey, hrest⟩ := encodeText_delimited _ _ _ _ heq
    obtain ⟨hnodes, huv⟩ := encodeText_delimited.list _ _ _ _ hrest
    exact ⟨Prod.ext hkey hnodes, huv⟩
  intro i j h
  obtain ⟨hhash, h⟩ := encodeText_delimited _ _ _ _ h
  obtain ⟨hlen, h⟩ := encodeText_delimited _ _ _ _ h
  obtain ⟨hmap, h⟩ := hentry.list _ _ _ _ h
  obtain ⟨hroot, h⟩ := encodeText_delimited _ _ _ _ h
  have hkey := (encodeText_delimited _ _ [] [] (congrArg (· ++ []) h)).1
  cases i
  cases j
  simp only [ShardMetaJSON.mk.injEq]
  exact ⟨hhash, toString_int_inj hlen, hmap, hroot, hkey⟩

/-- A code that repeats one byte and a hash that is always zero. -/
def sampleLibs : PrivacyLibs where
  sum256 _ := Vector.replicate 32 0
  encSplit _ := .ok (Vector.replicate erasureTotalShards [1])
  encEncode shards := .ok shards
  signTo _ _ := []
  marshal := encodeMeta
  marshal_inj := encodeMeta_inj

def sampleShards : List ShardResult :=
  (List.range erasureTotalShards).map fun i : ℕ => ⟨(i : ℤ), [1]⟩

/-- A disk and peers that always succeed. -/
def calmEnv : Environment where
  tfheNodeID := ""
  tfhePeers := ""
  writeShard _ _ := .ok ()
  writeSignature _ _ := .ok ()
  respond _ _ := .ok ()

theorem calmEnv_writes (commitmentHash : List UInt8) (index : ℤ) :
    calmEnv.writeShard commitmentHash index = .ok () := rfl

def nodeNamed (moniker : String) (env : Environment) : LocalNode :=
  ⟨moniker, "", true, none, env, ⟨∅, ∅, []⟩⟩

def sampleMsg : MsgTFHESubmit := ⟨devnet.text alice, List.replicate 1024 0⟩

theorem sampleMsg_length : sampleMsg.ciphertext.length = 1024 := List.length_replicate

theorem sampleMsg_admitted : Admitted devnet sampleLibs sampleMsg ∅ alice sampleShards where
  address := devnet.accAddressFromBech32_text alice
  large := by rw [sampleMsg_length]; decide
  small := by rw [sampleMsg_length]; decide
  quota := by decide
  split := rfl

/-- Whatever is assigned to such a node, its disk takes it. -/
theorem nodeNamed_ready (monikers : List String) (commitmentHash : List UInt8) (moniker : String)
    {env : Environment} (hdisk : ∀ c i, env.writeShard c i = .ok ()) :
    Ready sampleLibs monikers (nodeNamed moniker env) commitmentHash sampleShards := by
  refine ⟨rfl, fun sr hsr _ => ?_⟩
  obtain ⟨i, -, rfl⟩ := List.mem_map.mp hsr
  exact ⟨List.cons_ne_nil 1 [], hdisk _ _, fun hsig => absurd rfl hsig⟩

/-- Without validators a cluster is the node alone. Two nodes that differ only in
their names both succeed and store different bytes. -/
theorem names_differ :
    (tfheSubmit devnet sampleLibs [] (nodeNamed "alpha" calmEnv) sampleMsg ∅).returned.isSome =
      true ∧
    (tfheSubmit devnet sampleLibs [] (nodeNamed "beta" calmEnv) sampleMsg ∅).returned.isSome =
      true ∧
    commit (tfheSubmit devnet sampleLibs [] (nodeNamed "alpha" calmEnv) sampleMsg) ∅ ≠
      commit (tfheSubmit devnet sampleLibs [] (nodeNamed "beta" calmEnv) sampleMsg) ∅ := by
  have halpha := sampleMsg_admitted.ready_effect
    (nodeNamed_ready [] (commitmentOf sampleLibs sampleMsg) "alpha" calmEnv_writes)
  have hbeta := sampleMsg_admitted.ready_effect
    (nodeNamed_ready [] (commitmentOf sampleLibs sampleMsg) "beta" calmEnv_writes)
  refine ⟨halpha.1, hbeta.1, ?_⟩
  rw [halpha.2, hbeta.2, Ne, recorded_eq_iff, storedMeta_encoded]
  rintro ⟨-, hplacement⟩
  have hfirst : (⟨0, [1]⟩ : ShardResult) ∈ sampleShards :=
    List.mem_map.mpr ⟨0, List.mem_range.mpr (by decide : 0 < erasureTotalShards), rfl⟩
  exact absurd (hplacement _ hfirst) (by decide +kernel)

/-- Peers that never answer, and a name in the environment that is not asked for. -/
def silentEnv : Environment :=
  { calmEnv with
    tfheNodeID := "gamma"
    respond := fun _ _ => .error (.plain "peer send: HTTP request failed") }

/-- The names of the peers count, and what they answer does not. -/
theorem same_names_agree :
    SameEffect (tfheSubmit devnet sampleLibs ["beta"] (nodeNamed "alpha" calmEnv) sampleMsg)
      (tfheSubmit devnet sampleLibs ["beta"] (nodeNamed "alpha" silentEnv) sampleMsg) ∅ := by
  refine (submission_same_iff devnet sampleLibs ["beta"] sampleMsg ∅ _ _).mpr fun _ _ h => ?_
  obtain ⟨rfl, rfl⟩ := sampleMsg_admitted.unique h
  exact .inr ⟨nodeNamed_ready _ _ _ calmEnv_writes, nodeNamed_ready _ _ _ calmEnv_writes, rfl,
    fun _ _ => rfl⟩

end Samples

end Zytherion.SubmitAgreement
