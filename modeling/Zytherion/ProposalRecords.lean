import Zytherion.AdaptiveCommit
import Zytherion.Commitments
import Zytherion.HashChain
import Zytherion.SigningLatency

/-!
# The record of a proposal's hash

A proposal that is accepted writes its hash into the store of the privacy module. The
call works on a branch of the last committed state, which nobody writes back, and the
block itself is executed on the committed state. There the sentinel is answered without
being read, and all that is written has another key: latencies when the block begins,
commitments, metadata and quotas by messages, the timeout and the hash of the block when
it ends.

The other modules are left open. They have stores of their own, and reach the privacy
module by its messages, in a transaction or in a proposal that governance has passed.
-/
namespace Zytherion.ProposalRecords

open GoCall KeyedStore Application ChainState ByteStrings ShardPlacement TfheSubmit Commitments
open LwrHash Sentinel Proposals TxDelivery AdaptiveCommit SigningLatency SubmitAgreement Devnet

/-- What a block is executed with besides its transactions. -/
structure BlockHeader where
  height : Int64
  hashes : HashChain.Header
  votes : List VoteInfo

/-- A message of the privacy module, or anything on the other stores. -/
inductive Step (σ : Type) (A : App) where
  | privacy (msg : PrivacyMsg A)
  | other (x : Call σ Err Unit)

/-- The application but for the privacy module. `latencyBytes` is the moving average that
is stored for a validator, as the bits of a float. -/
structure Surroundings (σ Tx : Type) (A : App) where
  keccak : Keccak
  coins : CoinLibs
  shards : PrivacyLibs
  abciInfo : Err → ℕ × String
  abciInfo_code : ∀ e, (abciInfo e).1 ≠ 0
  recovered : String → Err
  blockGasMeter : Stores σ → Except Err Unit
  txDecoder : List UInt8 → Except Err Tx
  validateBasicTxMsgs : Tx → Except Err Unit
  ante : RunTxMode → Tx → Call σ Err Unit
  messages : Tx → List (Step σ A)
  log : Tx → String
  bank : σ → State
  setBank : σ → State → σ
  latencyBytes : KVStore → List UInt8 → List UInt8
  beginOthers : BlockHeader → σ → Checked σ
  passedProposals : BlockHeader → Stores σ → List (List (Step σ A))
  endOthers : BlockHeader → σ → Checked σ

section Application
variable {σ Tx : Type} {A : App} (U : Surroundings σ Tx A)

def onOthers {α : Type} (x : Call σ Err α) : Call (Stores σ) Err α :=
  zoom Stores.others (fun s t => { s with others := t }) x

def Step.exec : Step σ A → Call (Stores σ) Err Unit
  | privacy msg =>
      zoom (fun s => ⟨U.bank s.others, s.privacy⟩)
        (fun s w => ⟨U.setBank s.others w.bank, w.store⟩) (msg.handle U.coins U.shards)
  | other x => onOthers x

def execSteps (steps : List (Step σ A)) : Call (Stores σ) Err Unit := List.forM steps (Step.exec U)

/-- `RecordValidatorLatency` for the validators that missed the last block. -/
def recordLatency (store : KVStore) (vote : VoteInfo) : KVStore :=
  if vote.signedLastBlock then store
  else store.set (validatorLatencyKey vote.address) (U.latencyBytes store vote.address)

def beginBlocker (header : BlockHeader) (s : Stores σ) : Checked (Stores σ) := do
  let privacy := run (recordLatency U) s.privacy header.votes
  let others ← U.beginOthers header s.others
  return ⟨others, privacy⟩

/-- The messages of a proposal are executed in a branch. -/
def endModules (header : BlockHeader) (s : Stores σ) : Checked (Stores σ) := do
  let s := run (fun s steps => commit (execSteps U steps) s) s (U.passedProposals header s)
  let others ← U.endOthers header s.others
  let privacy ← HashChain.endBlock U.keccak header.height header.hashes s.privacy
  return ⟨others, privacy⟩

def chainApp : ChainApp σ Tx Err BlockHeader where
  abciInfo := U.abciInfo
  abciInfo_code := U.abciInfo_code
  recovered := U.recovered
  blockGasMeter := U.blockGasMeter
  txDecoder := U.txDecoder
  validateBasicTxMsgs := U.validateBasicTxMsgs
  anteHandler mode tx := onOthers (U.ante mode tx)
  runMsgs tx := do
    execSteps U (U.messages tx)
    return U.log tx
  beginBlock := beginBlocker U
  endBlock := endModules U

/-- A node, and the branch that its last call of `ProcessProposal` worked on. -/
structure Validator (σ : Type) where
  node : Node σ
  branch : Stores σ

def startValidator (s : Stores σ) : Validator σ := ⟨startNode s, s⟩

/-- What happens between two blocks: proposals, accepted or not, checks of transactions
and restarts. -/
inductive Happening where
  | proposal (txs : List (List UInt8))
  | here (e : LocalEvent)

/-- The branch of a call. A panic is recovered. -/
def proposalBranch (committed : Stores σ) (txs : List (List UInt8)) : Stores σ :=
  match lwrProcessProposal U.keccak committed.privacy txs with
  | .ok p => { committed with privacy := p.store }
  | .error _ => committed

def happen (v : Validator σ) : Happening → Validator σ
  | .proposal txs => { v with branch := proposalBranch U v.node.committed txs }
  | .here e => { v with node := localStep (chainApp U) v.node e }

def commitBlock (v : Validator σ) (b : Block BlockHeader) : Checked (Validator σ) := do
  let (node, _) ← deliverBlock (chainApp U) v.node b
  return { v with node := node }

/-- A block that a node committed, between the stores of the privacy module before and
after it. -/
structure Committed where
  before : KVStore
  txs : List (List UInt8)
  after : KVStore

/-- What a node commits until a panic stops it. -/
def committedBlocks : Validator σ → List (List Happening × Block BlockHeader) → List Committed
  | _, [] => []
  | v, (happenings, b) :: rest =>
      let v := run (happen U) v happenings
      match commitBlock U v b with
      | .ok v' =>
          ⟨v.node.committed.privacy, b.txs, v'.node.committed.privacy⟩ :: committedBlocks v' rest
      | .error _ => []

/-- The hash of the transactions behind the sentinel, on the state before the block. -/
def Committed.hash (c : Committed) : List UInt8 := expectedHash U.keccak c.before c.txs.tail

def Committed.Recorded (c : Committed) : Prop :=
  c.after.get lwrProposalHashKey = some (c.hash U)

end Application

/-! Nothing but a proposal writes the record. -/

section Keys

/-- The first letter of the key is nobody else's. -/
theorem key_ne_labelled {label : List UInt8} (hlabel : 1 ≤ label.length)
    (h : lwrProposalHashKey.take 1 ≠ label.take 1) (x : List UInt8) :
    lwrProposalHashKey ≠ label ++ x := by
  rw [← List.append_nil lwrProposalHashKey]
  exact labelled_ne 1 (by decide +kernel) hlabel h

theorem latencyKey_ne (consAddr : List UInt8) :
    lwrProposalHashKey ≠ validatorLatencyKey consAddr :=
  key_ne_labelled (by decide +kernel) (by decide +kernel) consAddr

theorem commitmentKey_ne (addr : AccAddress) : lwrProposalHashKey ≠ commitmentKey addr :=
  key_ne_labelled (by decide +kernel) (by decide +kernel) addr.bytes

theorem tfheMetaKey_ne (hash : List UInt8) : lwrProposalHashKey ≠ tfheMetaKey hash :=
  key_ne_labelled (by decide +kernel) (by decide +kernel) hash

theorem tfheQuotaKey_ne (addr : AccAddress) : lwrProposalHashKey ≠ tfheQuotaKey addr :=
  key_ne_labelled (by decide +kernel) (by decide +kernel) addr.bytes

theorem adaptiveTimeoutKey_ne : lwrProposalHashKey ≠ adaptiveTimeoutKey := by decide +kernel

theorem latestPQCHashKey_ne : lwrProposalHashKey ≠ latestPQCHashKey := by decide +kernel

end Keys

section Transactions
variable {S Tx ε γ : Type} {B : BaseApp S Tx ε} {view : S → γ}

/-- What the ante chain and the handlers leave alone, a transaction leaves alone. -/
structure Leaves (B : BaseApp S Tx ε) (view : S → γ) : Prop where
  ante : ∀ mode tx s u t, B.anteHandler mode tx s = .ok u t → view t = view s
  msgs : ∀ tx s log t, B.runMsgs tx s = .ok log t → view t = view s

theorem Leaves.runHandlers (h : Leaves B view) (mode : RunTxMode) (tx : Tx) (s : S) :
    view (TxDelivery.runHandlers B mode tx s).state = view s := by
  unfold TxDelivery.runHandlers
  split_ifs
  · cases hmsgs : B.runMsgs tx s with
    | ok log t => exact h.msgs tx s log t hmsgs
    | err e t => rfl
    | panic r => rfl
  · rfl

theorem Leaves.runTx (h : Leaves B view) (mode : RunTxMode) (tx : List UInt8) (s : S) :
    view (TxDelivery.runTx B mode tx s).state = view s := by
  unfold TxDelivery.runTx
  cases decodeAndValidate B mode tx s with
  | error e => rfl
  | ok tx =>
      show view (runAnte B mode tx s).state = view s
      unfold runAnte
      cases hante : B.anteHandler mode tx s with
      | ok u t => exact (h.runHandlers mode tx t).trans (h.ante mode tx s u t hante)
      | err e t => rfl
      | panic r => rfl

theorem Leaves.deliverTx (h : Leaves B view) (tx : List UInt8) (s : S) :
    view (TxDelivery.deliverTx B tx s).state = view s := by
  unfold TxDelivery.deliverTx
  split_ifs
  · rfl
  · exact h.runTx .deliver tx s

theorem Leaves.deliverTxs (h : Leaves B view) (txs : List (List UInt8)) (s : S) :
    view (stateAfter s (TxDelivery.deliverTxs B s txs)) = view s := by
  have hall : ∀ a ∈ TxDelivery.deliverTxs B s txs, view a.state = view s := by
    induction txs generalizing s with
    | nil => simp [TxDelivery.deliverTxs]
    | cons tx txs ih =>
        intro a ha
        rcases List.mem_cons.mp ha with rfl | ha
        · exact h.deliverTx tx s
        · exact (ih _ a ha).trans (h.deliverTx tx s)
  unfold stateAfter
  cases hlast : (TxDelivery.deliverTxs B s txs).getLast? with
  | none => rfl
  | some a => exact hall a (List.mem_of_getLast? hlast)

end Transactions

section Kept
variable {σ Tx : Type} {A : App} (U : Surroundings σ Tx A) {s t : Stores σ}

/-- The record in the store of the privacy module. -/
def record (store : KVStore) : Option (List UInt8) := store.get lwrProposalHashKey

theorem record_set {key : List UInt8} (h : lwrProposalHashKey ≠ key) (store : KVStore)
    (value : List UInt8) : record (store.set key value) = record store :=
  Store.get_set_ne store value h

theorem record_handle {msg : PrivacyMsg A} {w w' : PrivacyState}
    (h : msg.handle U.coins U.shards w = .ok () w') : record w'.store = record w.store := by
  cases msg with
  | initCommitment ctx msg =>
      obtain ⟨creator, -, hstore⟩ := initCommitment_ok h
      rw [hstore, record_set (commitmentKey_ne creator)]
  | tfheSubmit monikers n msg =>
      simp only [PrivacyMsg.handle, bind_ok, onStore_ok, pure_ok] at h
      obtain ⟨_, _, ⟨store, hsubmit, rfl⟩, -, rfl⟩ := h
      obtain ⟨sender, shards, -, -, -, rfl⟩ := tfheSubmit_ok.mp hsubmit
      rw [recorded, setTFHEQuota, record_set (tfheQuotaKey_ne sender),
        record_set (commitmentKey_ne sender), record_set (tfheMetaKey_ne _)]

theorem record_onOthers {α : Type} {x : Call σ Err α} {a : α} (h : onOthers x s = .ok a t) :
    record t.privacy = record s.privacy := by
  obtain ⟨_, -, rfl⟩ := (zoom_ok ..).mp h
  rfl

theorem record_step {step : Step σ A} {u : Unit} (h : step.exec U s = .ok u t) :
    record t.privacy = record s.privacy := by
  cases step with
  | privacy msg =>
      rw [Step.exec, zoom_ok] at h
      obtain ⟨w, hmsg, rfl⟩ := h
      exact record_handle U hmsg
  | other x => exact record_onOthers h

theorem record_steps {steps : List (Step σ A)} {u : Unit} (h : execSteps U steps s = .ok u t) :
    record t.privacy = record s.privacy := by
  induction steps generalizing s with
  | nil =>
      cases h
      rfl
  | cons step steps ih =>
      obtain ⟨m, hstep, hrest⟩ := (forM_cons_ok ..).mp h
      exact (ih hrest).trans (record_step U hstep)

theorem leaves_record : Leaves (chainApp U).toBaseApp fun s => record s.privacy where
  ante := fun _ _ _ _ _ h => record_onOthers h
  msgs := by
    intro tx s log t h
    obtain ⟨_, _, hsteps, hlog⟩ := (bind_ok ..).mp h
    obtain ⟨-, rfl⟩ := (pure_ok ..).mp hlog
    exact record_steps U hsteps

theorem record_recordLatency (store : KVStore) (vote : VoteInfo) :
    record (recordLatency U store vote) = record store := by
  unfold recordLatency
  split_ifs
  · rfl
  · exact record_set (latencyKey_ne vote.address) store _

theorem record_beginBlocker {header : BlockHeader} (h : beginBlocker U header s = .ok t) :
    record t.privacy = record s.privacy := by
  obtain ⟨others, -, hpure⟩ := (checked_bind_ok ..).mp h
  cases hpure
  exact run_invariant (fun store => record store = record s.privacy) (fun _ => True)
    (fun store vote _ hstore => (record_recordLatency U store vote).trans hstore) header.votes
    s.privacy rfl fun _ _ => trivial

theorem record_passed (proposals : List (List (Step σ A))) (s : Stores σ) :
    record (run (fun s steps => commit (execSteps U steps) s) s proposals).privacy =
      record s.privacy := by
  apply run_invariant (fun t : Stores σ => record t.privacy = record s.privacy) (fun _ => True)
  · intro t steps _ ht
    apply commit_preserves (P := fun t : Stores σ => record t.privacy = record s.privacy) ht
    exact fun _ t' h => (record_steps U h).trans ht
  · rfl
  · exact fun _ _ => trivial

theorem record_endModules {header : BlockHeader} (h : endModules U header s = .ok t) :
    record t.privacy = record s.privacy := by
  obtain ⟨others, -, hprivacy⟩ := (checked_bind_ok ..).mp h
  obtain ⟨privacy, hhash, hpure⟩ := (checked_bind_ok ..).mp hprivacy
  cases hpure
  rw [HashChain.endBlock_ok] at hhash
  cases hhash
  exact (record_set latestPQCHashKey_ne _ _).trans (record_passed U _ s)

/-- A block leaves the record as it was. -/
theorem record_deliverBlock {n n' : Node σ} {b : Block BlockHeader} {out : BlockOutput}
    (h : deliverBlock (chainApp U) n b = .ok (n', out)) :
    record n'.committed.privacy = record n.committed.privacy := by
  obtain ⟨s, hbegin, hrest⟩ := (checked_bind_ok ..).mp h
  obtain ⟨⟨t, m, event⟩, hend, hpure⟩ := (checked_bind_ok ..).mp hrest
  cases hpure
  obtain ⟨t', hmodules, hpure⟩ := (checked_bind_ok ..).mp hend
  cases hpure
  have htimeout := record_set adaptiveTimeoutKey_ne
    (stateAfter s (TxDelivery.deliverTxs (chainApp U).toBaseApp s b.txs)).privacy
  have htxs := (leaves_record U).deliverTxs b.txs s
  exact (record_endModules U hmodules).trans ((htimeout _).trans
    (htxs.trans (record_beginBlocker U hbegin)))

/-- The branch of an accepted proposal has the record. -/
theorem record_branch {committed : Stores σ} {txs : List (List UInt8)}
    (h : Accepts U.keccak committed.privacy txs) :
    record (proposalBranch U committed txs).privacy =
      some (expectedHash U.keccak committed.privacy txs.tail) := by
  cases txs with
  | nil =>
      obtain ⟨p, hp, haccept⟩ := h
      cases hp
      cases haccept
  | cons sentinel rest =>
      obtain ⟨version, steps, trailing, hversion, hsteps, rfl⟩ := accepts_iff.mp h
      rw [proposalBranch, process_layout hversion hsteps]
      exact Store.get_set_self ..

/-- Nothing that happens between two blocks writes to what is committed. -/
theorem happen_committed (happenings : List Happening) (v : Validator σ) :
    (run (happen U) v happenings).node.committed = v.node.committed := by
  apply run_invariant (fun v' : Validator σ => v'.node.committed = v.node.committed) (fun _ => True)
  · intro v' happening _ hv'
    cases happening with
    | proposal txs => exact hv'
    | here e => cases e <;> exact hv'
  · rfl
  · exact fun _ _ => trivial

theorem mem_committedBlocks {v v' : Validator σ} {happenings : List Happening}
    {b : Block BlockHeader} (h : commitBlock U (run (happen U) v happenings) b = .ok v')
    (rounds : List (List Happening × Block BlockHeader)) :
    ⟨v.node.committed.privacy, b.txs, v'.node.committed.privacy⟩ ∈
      committedBlocks U v ((happenings, b) :: rounds) := by
  rw [committedBlocks, h, ← happen_committed U happenings v]
  exact List.mem_cons_self

theorem record_committed (rounds : List (List Happening × Block BlockHeader)) (v : Validator σ)
    {c : Committed} (hc : c ∈ committedBlocks U v rounds) :
    record c.after = record v.node.committed.privacy := by
  induction rounds generalizing v with
  | nil => cases hc
  | cons round rounds ih =>
      obtain ⟨happenings, b⟩ := round
      have hquiet := happen_committed U happenings v
      rw [committedBlocks] at hc
      cases hblock : commitBlock U (run (happen U) v happenings) b with
      | error reason =>
          rw [hblock] at hc
          cases hc
      | ok v' =>
          obtain ⟨⟨n, out⟩, hdeliver, hpure⟩ := (checked_bind_ok ..).mp hblock
          have hkept := record_deliverBlock U hdeliver
          rw [hquiet] at hkept
          cases hpure
          rw [hblock] at hc
          rcases List.mem_cons.mp hc with rfl | hc
          · exact hkept
          · exact (ih _ hc).trans hkept

end Kept

/-- The hash of every block is recorded exactly if the record that a node started with is
the hash of each of them. -/
theorem proposal_hash_recorded_iff {σ Tx : Type} {A : App} (U : Surroundings σ Tx A)
    (v : Validator σ) (rounds : List (List Happening × Block BlockHeader)) :
    (∀ c ∈ committedBlocks U v rounds, c.Recorded U) ↔
      ∀ c ∈ committedBlocks U v rounds,
        v.node.committed.privacy.get lwrProposalHashKey = some (c.hash U) := by
  apply forall₂_congr
  intro c hc
  have hkept : c.after.get lwrProposalHashKey = v.node.committed.privacy.get lwrProposalHashKey :=
    record_committed U rounds v hc
  rw [Committed.Recorded, hkept]

/-! Modules that do nothing. -/

def quiet : Surroundings Unit Unit devnet where
  keccak := zeroKeccak
  coins := tenCoins
  shards := sampleLibs
  abciInfo _ := (1, "")
  abciInfo_code _ := by decide
  recovered reason := .plain reason
  blockGasMeter _ := .ok ()
  txDecoder _ := .ok ()
  validateBasicTxMsgs _ := .ok ()
  ante _ _ := pure ()
  messages _ := []
  log _ := ""
  bank _ := treasury.blank
  setBank _ _ := ()
  latencyBytes _ _ := []
  beginOthers _ s := .ok s
  passedProposals _ _ := []
  endOthers _ s := .ok s

theorem quiet_commits (v : Validator Unit) (b : Block BlockHeader) :
    ∃ v', commitBlock quiet v b = .ok v' := by
  have hend : ∀ header s, ∃ t, endModules quiet header s = .ok t := by
    intro header s
    exact ⟨_, (checked_bind_ok ..).mpr ⟨_, rfl, (checked_bind_ok ..).mpr
      ⟨_, HashChain.endBlock_ok .., rfl⟩⟩⟩
  have hdeliver : ∃ r, deliverBlock (chainApp quiet) v.node b = .ok r := by
    obtain ⟨t, ht⟩ := hend b.header _
    exact ⟨_, (checked_bind_ok ..).mpr ⟨_, rfl, (checked_bind_ok ..).mpr
      ⟨_, (checked_bind_ok ..).mpr ⟨t, ht, rfl⟩, rfl⟩⟩⟩
  obtain ⟨r, hr⟩ := hdeliver
  exact ⟨_, (checked_bind_ok ..).mpr ⟨r, hr, rfl⟩⟩

/-- Whatever happens before the first block of a chain, the block is committed without
the record. -/
theorem quiet_unrecorded (happenings : List Happening) (b : Block BlockHeader) :
    ∃ c ∈ committedBlocks quiet (startValidator emptyStores) [(happenings, b)],
      ¬ c.Recorded quiet := by
  obtain ⟨v', hv'⟩ :=
    quiet_commits (run (happen quiet) (startValidator emptyStores) happenings) b
  have hmem := mem_committedBlocks quiet hv' []
  have hkept : record v'.node.committed.privacy = none := record_committed quiet _ _ hmem
  exact ⟨_, hmem, fun hrecorded => Option.some_ne_none _ (hrecorded.symm.trans hkept)⟩

/-- The sentinel of an empty block, on an empty store. -/
def emptyProposal : List (List UInt8) := [sentinelFor zeroKeccak ∅ []]

def firstBlock : Block BlockHeader := ⟨⟨1, ⟨[], []⟩, []⟩, emptyProposal⟩

/-- A node that has voted on it. -/
def voted : Validator Unit := happen quiet (startValidator emptyStores) (.proposal emptyProposal)

/-- A first block that is accepted, committed by the node that voted on it and by one that
replays it. The branch of the vote has the record, and neither node does. -/
theorem accepted_block_not_recorded : Accepts zeroKeccak ∅ emptyProposal ∧
    record voted.branch.privacy = some (expectedHash zeroKeccak ∅ []) ∧
    (∃ c ∈ committedBlocks quiet (startValidator emptyStores)
      [([.proposal emptyProposal], firstBlock)], ¬ c.Recorded quiet) ∧
    ∃ c ∈ committedBlocks quiet (startValidator emptyStores) [([], firstBlock)],
      ¬ c.Recorded quiet := by
  have haccepts : Accepts zeroKeccak ∅ emptyProposal := sentinelFor_accepted zeroKeccak ∅ []
  exact ⟨haccepts, record_branch quiet haccepts, quiet_unrecorded _ _, quiet_unrecorded _ _⟩

end Zytherion.ProposalRecords
