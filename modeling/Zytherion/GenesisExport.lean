import Zytherion.MintRecordKeys
import Zytherion.RestoredStores
import Zytherion.OracleChain
import Zytherion.CreditLimit
import Zytherion.Commitments
import Zytherion.HashChain

/-!
# What an export carries over

The stablecoin exports its parameters, the mint records and the supply counter;
the oracle and the privacy module export their parameters. Starting again from
such a file gives the same answers about these, since every record stands under
the key that is computed from it and the counter's text is read back. Everything
else the keepers can be asked is answered as on an empty chain: registered keys,
confidential accounts, prices, commitments, shard metadata, quotas and the hash
of the last block.
-/
namespace Zytherion.GenesisExport

open GoCall KeyedStore SdkMath Application ChainState StablecoinKeeper Chain OracleKeeper
open OracleMsgServer ConfidentialKeeper CreditLimit ByteStrings TfheSubmit Commitments
open LwrHash Proposals ShardPlacement MintRecordKeys VaultFrames

/-- The stores of the modules: those of the stablecoin, in the part it shares with
the bank and the vault and in its confidential accounts, those of the oracle, and
that of the privacy module. -/
structure Modules where
  world : World
  accounts : Accounts
  privacy : KVStore

abbrev ModulesExec (α : Type) : Type := Call Modules Err α

/-- What the modules link. The decoder of shard metadata may be any function of the
stored bytes. -/
structure Libs where
  keccak : Keccak
  coins : CoinLibs
  shards : PrivacyLibs
  unmarshalTFHEMeta : List UInt8 → Option TFHEShardMeta

section Parts
variable {α : Type}

def onWorld (x : WorldExec α) : ModulesExec α :=
  zoom Modules.world (fun m w => { m with world := w }) x

def onAccounts (x : ConfExec α) : ModulesExec α :=
  zoom Modules.accounts (fun m a => { m with accounts := a }) x

def onPrivacy (x : Handler α) : ModulesExec α :=
  zoom (fun m => ⟨m.world.chain, m.privacy⟩)
    (fun m w => { m with world := { m.world with chain := w.bank }, privacy := w.store }) x

variable {a : α} {m m' : Modules}

@[simp] theorem onWorld_ok {x : WorldExec α} : onWorld x m = .ok a m' ↔
    ∃ w, x m.world = .ok a w ∧ { m with world := w } = m' := zoom_ok ..

@[simp] theorem onAccounts_ok {x : ConfExec α} : onAccounts x m = .ok a m' ↔
    ∃ t, x m.accounts = .ok a t ∧ { m with accounts := t } = m' := zoom_ok ..

@[simp] theorem onPrivacy_ok {x : Handler α} : onPrivacy x m = .ok a m' ↔
    ∃ w, x ⟨m.world.chain, m.privacy⟩ = .ok a w ∧
      { m with world := { m.world with chain := w.bank }, privacy := w.store } = m' := zoom_ok ..

end Parts

section Genesis
variable (A : App)

/-- A genesis file of the three modules. The parameters of the privacy module have
no fields. -/
structure Genesis where
  stablecoin : StablecoinGenesis
  oracle : OracleParams

def initGenesis (g : Genesis) : ModulesExec Unit := do
  onWorld (onChain (initStablecoin A g.stablecoin))
  onWorld (OracleMsgServer.initGenesis g.oracle)

/-- The stores of the three modules before genesis, everything around them as it is. -/
def emptied (m : Modules) : Modules where
  world := { m.world with
    oracleParams := none, prices := ∅
    chain := { m.world.chain with
      twaps := ∅, params := none, records := ∅, totalSupply := none, pqcKeys := ∅ } }
  accounts := noAccounts
  privacy := ∅

def started (g : Genesis) (m : Modules) : Modules := commit (initGenesis A g) (emptied m)

/-- The iterator over the records' prefix meets every record. -/
def exportStablecoin (s : State) : StablecoinGenesis where
  params := s.params.getD defaultStablecoinParams
  mintRecords := s.records.values
  totalSupply := toString (totalSupplyOf s)

def exportGenesis (m : Modules) : Genesis where
  stablecoin := exportStablecoin m.world.chain
  oracle := paramsOf m.world

/-- The modules started again from their own export. -/
def restarted (m : Modules) : Modules := started A (exportGenesis m) m

end Genesis

section Reads

/-- The answers an export carries over. -/
structure CarriedReads where
  stablecoinParams : StablecoinParams
  mintRecord : AccAddress → String → Option MintRecord
  totalSupply : SdkInt
  oracleParams : OracleParams

/-- The other answers of the keepers. -/
structure OtherReads where
  zytdPQCKey : AccAddress → Option (List UInt8)
  userTFHEPublicKey : AccAddress → Option (List UInt8)
  zytdAccountState : AccAddress → ZYTDAccountState
  latestPrice : String → Option PriceEntry
  priceHistory : String → Int64 → List PriceEntry
  twap : String → Option TWAPData
  commitment : AccAddress → Option (List UInt8)
  tfheMeta : List UInt8 → Option TFHEShardMeta
  tfheQuota : AccAddress → ℕ
  latestPQCHash : Option (List UInt8)

structure Reads where
  carried : CarriedReads
  other : OtherReads

def getTFHEMeta (L : Libs) (commitmentHash : List UInt8) (s : KVStore) : Option TFHEShardMeta :=
  (s.get (tfheMetaKey commitmentHash)).bind L.unmarshalTFHEMeta

variable (A : App) (L : Libs)

def carriedReads (m : Modules) : CarriedReads where
  stablecoinParams := m.world.chain.params.getD defaultStablecoinParams
  mintRecord owner d := (getMintRecord A owner d m.world.chain).returned
  totalSupply := totalSupplyOf m.world.chain
  oracleParams := paramsOf m.world

def otherReads (m : Modules) : OtherReads where
  zytdPQCKey owner := (getZYTDPQCKey A owner m.world.chain).returned
  userTFHEPublicKey addr := m.accounts.pubKeys.get (userPubKeyStoreKey A addr)
  zytdAccountState addr := accountState A m.accounts addr
  latestPrice denom := getLatestPrice m.world denom
  priceHistory denom fromHeight := OracleKeeper.priceHistory m.world denom fromHeight
  twap denom := (getTWAP denom m.world.chain).returned
  commitment addr := getCommitment addr m.privacy
  tfheMeta commitmentHash := getTFHEMeta L commitmentHash m.privacy
  tfheQuota addr := getTFHEQuota addr m.privacy
  latestPQCHash := m.privacy.get latestPQCHashKey

def reads (m : Modules) : Reads := ⟨carriedReads A m, otherReads A L m⟩

/-- The answers of modules that have stored nothing. -/
def nothingStored : OtherReads where
  zytdPQCKey _ := none
  userTFHEPublicKey _ := none
  zytdAccountState _ := ⟨[], 0, 0, 0⟩
  latestPrice _ := none
  priceHistory _ _ := []
  twap _ := none
  commitment _ := none
  tfheMeta _ := none
  tfheQuota _ := 0
  latestPQCHash := none

end Reads

section Runs
variable {A : App}

/-- What may happen to the modules. Messages of the vault and the stablecoin and
the prices stored for them are events of the chain; a confidential call brings the
library as it behaves in that call; the bank, the vault and the validators may
change in any way. -/
inductive Input (A : App) where
  | event (e : Event A)
  | submitPrice (ctx : Ctx A) (msg : MsgSubmitPrice)
  | beginBlock (ctx : Ctx A)
  | endBlock (ctx : Ctx A) (header : HashChain.Header)
  | confidential (tfhe : TfheOps) (call : ConfInput A)
  | privacy (msg : PrivacyMsg A)
  | environment (outside : State) (staking : ValidatorSet)

variable (L : Libs)

/-- The privacy module's part of the end of a block. -/
def storeBlockHash (ctx : Ctx A) (header : HashChain.Header) : ModulesExec Unit := do
  let store ← gets Modules.privacy
  let store ← HashChain.endBlock L.keccak ctx.height header store
  modifyStore fun m => { m with privacy := store }

def Input.exec : Input A → ModulesExec Unit
  | event e => onWorld (onChain e.exec)
  | submitPrice ctx msg => onWorld (msg.exec ctx)
  | beginBlock ctx => onWorld (OracleMsgServer.beginBlock ctx)
  | endBlock ctx header => do
      onWorld (OracleMsgServer.endBlock ctx)
      storeBlockHash L ctx header
  | confidential tfhe call => onAccounts (call.call tfhe)
  | privacy msg => onPrivacy (msg.handle L.coins L.shards)
  | environment outside staking =>
      modifyStore fun m => { m with world := OracleChain.surrounded m.world outside staking }

def step (m : Modules) (i : Input A) : Modules := commit (i.exec L) m

end Runs

section Records
variable {A : App} (ctx : Ctx A)

theorem refreshTWAP_keeps (d : String) :
    Keeps (fun w : World => w.chain.records) (refreshTWAP ctx d) := by
  have hcompute : Keeps (fun w : World => w.chain.records) (computeTWAP ctx d) :=
    .bind (.gets _) fun _ => .bind (.gets _) fun _ => .bind (.require _ _) fun _ =>
      .bind (.liftM _) fun _ => .pure _
  have hset : ∀ twap, Keeps State.records (setTWAP twap) := fun _ => .modifyStore fun _ => rfl
  refine .bind hcompute.attempt fun computed => ?_
  cases computed with
  | none => exact .pure _
  | some twap => exact (hset twap).zoom fun _ _ h => h

theorem pruneOldPrices_keeps (height : Int64) :
    Keeps (fun w : World => w.chain.records) (pruneOldPrices height) :=
  .bind (.gets _) fun _ => .ite (.pure _) (.modifyStore fun _ => rfl)

theorem submitPrice_keeps (msg : MsgSubmitPrice) :
    Keeps (fun w : World => w.chain.records) (msg.exec ctx) := by
  have hvalidate : Keeps (fun w : World => w.chain.records) (msg.validateBasic A) :=
    .bind (.mapErr _ (.ofExcept _)) fun _ => .bind (.require _ _) fun _ => .require _ _
  exact .bind hvalidate fun _ => .bind (.mapErr _ (.ofExcept _)) fun _ => .bind (.gets _) fun _ =>
    .bind (.require _ _) fun _ => .bind (.gets _) fun _ => .bind (.require _ _) fun _ =>
    .bind (.require _ _) fun _ => .bind (.liftM _) fun _ => .bind (.modifyStore fun _ => rfl)
    fun _ => .bind (refreshTWAP_keeps ctx _) fun _ => pruneOldPrices_keeps _

theorem privacyMsg_keeps (P : CoinLibs) (L : PrivacyLibs) (msg : PrivacyMsg A) :
    Keeps (fun w : PrivacyState => w.bank.records) (msg.handle P L) := by
  -- the module's own store is apart from the bank's state
  have hstore : ∀ {α : Type} (x : PrivacyExec α),
      Keeps (fun w : PrivacyState => w.bank.records) (onStore x) := fun x =>
    Keeps.zoom (fun _ _ _ => rfl : Keeps (fun _ => ()) x) fun _ _ _ => rfl
  cases msg with
  | initCommitment ctx msg =>
      exact .bind (.mapErr _ (.ofExcept _)) fun _ => .bind (.mapErr _ (.ofExcept _)) fun _ =>
        .bind (.require _ _) fun _ => .bind (.liftM _) fun _ =>
        .bind (.mapErr _ ((records_of_bank (sendCoinsFromAccountToModule_keeps ctx _ _ _)).zoom
          fun _ _ h => h)) fun _ => .bind (.mapErr _ (.ofExcept _)) fun _ => .mapErr _ (hstore _)
  | tfheSubmit monikers n msg => exact .bind (hstore _) fun _ => .pure _

variable {ctx}

/-- Only the events of the chain write records. -/
theorem input_maintains (L : Libs) (i : Input A) :
    Maintains (fun m : Modules => RecordsKeyed A m.world.chain) (i.exec L) := by
  have hkeeps : ∀ {x : ModulesExec Unit}, Keeps (fun m : Modules => m.world.chain.records) x →
      Maintains (fun m : Modules => RecordsKeyed A m.world.chain) x :=
    Maintains.of_keeps fun _ _ h => RecordsKeyed.of_records h
  cases i with
  | event e =>
      have hworld : Maintains (fun w : World => RecordsKeyed A w.chain) (onChain e.exec) :=
        (event_maintains e).zoom (fun _ h => h) fun _ _ _ h => h
      exact hworld.zoom (fun _ h => h) fun _ _ _ h => h
  | submitPrice ctx msg => exact hkeeps ((submitPrice_keeps ctx msg).zoom fun _ _ h => h)
  | beginBlock ctx =>
      have hbegin : Keeps (fun w : World => w.chain.records) (OracleMsgServer.beginBlock ctx) :=
        .bind (.gets _) fun _ => .forM (refreshTWAP_keeps ctx) _
      exact hkeeps (hbegin.zoom fun _ _ h => h)
  | endBlock ctx header =>
      exact hkeeps (.bind ((pruneOldPrices_keeps _).zoom fun _ _ h => h) fun _ =>
        .bind (.gets _) fun _ => .bind (.liftM _) fun _ => .modifyStore fun _ => rfl)
  | confidential tfhe call =>
      exact hkeeps (Keeps.zoom (fun _ _ _ => rfl : Keeps (fun _ => ()) (call.call tfhe))
        fun _ _ _ => rfl)
  | privacy msg => exact hkeeps ((privacyMsg_keeps _ _ msg).zoom fun _ _ h => h)
  | environment outside staking => exact hkeeps (.modifyStore fun _ => rfl)

end Records

section Restart
variable {A : App}

theorem setMintRecord_forM (records : List MintRecord) (s : State) :
    records.forM (setMintRecord A) s = .ok () { s with
      records := s.records.restore (fun r => some (storedRecordKey A r)) records } := by
  induction records generalizing s with
  | nil => rfl
  | cons r records ih => exact (bind_ok _ _).mpr ⟨(), _, rfl, ih _⟩

/-- The modules as they start from a file. -/
theorem started_eq (g : Genesis) (m : Modules) : started A g m = { emptied m with
    world := { (emptied m).world with
      oracleParams := some g.oracle
      chain := { (emptied m).world.chain with
        params := some g.stablecoin.params
        totalSupply := some (genesisSupply A g.stablecoin.totalSupply)
        records := Store.restore (fun r => some (storedRecordKey A r)) ∅
          g.stablecoin.mintRecords } } } := by
  apply commit_ok (a := ())
  simp only [initGenesis, onWorld, onChain, initStablecoin, setParams, setTotalSupply,
    OracleMsgServer.initGenesis, setOracleParams, bind_ok, zoom_ok, modifyStore_ok,
    setMintRecord_forM, Outcome.ok.injEq]
  exact ⟨(), _, ⟨_, ⟨_, ⟨(), _, rfl, (), _, rfl, trivial, rfl⟩, rfl⟩, rfl⟩, _, rfl, rfl⟩

/-- Whatever the file lists, a record is stored under its own key. -/
theorem started_keyed (g : Genesis) (m : Modules) : RecordsKeyed A (started A g m).world.chain := by
  have hinit : Maintains (RecordsKeyed A) (initStablecoin A g.stablecoin) :=
    .bind (maintains_of_records (.modifyStore fun _ => rfl)) fun _ =>
      .bind (maintains_of_records (.modifyStore fun _ => rfl)) fun _ =>
      .forM setMintRecord_maintains _
  have hworld : Maintains (fun w : World => RecordsKeyed A w.chain)
      (onChain (initStablecoin A g.stablecoin)) := hinit.zoom (fun _ h => h) fun _ _ _ h => h
  have hgenesis : Maintains (fun m : Modules => RecordsKeyed A m.world.chain) (initGenesis A g) :=
    .bind (hworld.zoom (fun _ h => h) fun _ _ _ h => h) fun _ =>
      Maintains.zoom (P := fun w : World => RecordsKeyed A w.chain) (.modifyStore fun _ h => h)
        (fun _ h => h) fun _ _ _ h => h
  apply hgenesis.commit
  intro k record hget
  exact absurd hget (by simp [emptied])

/-- In every state the modules reach the records stand under their keys. -/
theorem reached_keyed (L : Libs) (g : Genesis) (outside : Modules) (inputs : List (Input A)) :
    RecordsKeyed A (run (step L) (started A g outside) inputs).world.chain :=
  run_invariant (fun m : Modules => RecordsKeyed A m.world.chain) (fun _ => True)
    (fun _ i _ hm => (input_maintains L i).commit hm) inputs _ (started_keyed g outside)
    fun _ _ => trivial

/-- The parser of integers reads back what the printer of integers writes. -/
def ReadsBack (A : App) : Prop := ∀ n : SdkInt, A.newIntFromString (toString n) = some n

theorem genesisSupply_toString (hparse : ReadsBack A) (n : SdkInt) :
    genesisSupply A (toString n) = n := by
  have hne : toString n ≠ "" := toString_int_ne_empty n.val
  rw [genesisSupply, if_neg hne, hparse, Option.getD_some]

theorem lookup_returned {σ ε α : Type} (f : σ → Option α) (e : ε) (s : σ) :
    (lookup f e s).returned = f s := by
  unfold lookup
  cases f s <;> rfl

/-- What is exported is answered as before. -/
theorem carried_started (hparse : ReadsBack A) {m : Modules}
    (hkeyed : RecordsKeyed A m.world.chain) :
    carriedReads A (restarted A m) = carriedReads A m := by
  have hrecords : ∀ k, (Store.restore (fun r => some (storedRecordKey A r)) ∅
      m.world.chain.records.values).get k = m.world.chain.records.get k :=
    Store.get_restore_values _ fun k r hget => congrArg some (hkeyed k r hget)
  rw [restarted, started_eq]
  simp only [carriedReads, getMintRecord, lookup_returned, exportGenesis, exportStablecoin,
    hrecords, totalSupplyOf, genesisSupply_toString hparse, paramsOf, Option.getD_some]

/-- What is not exported is answered as on an empty chain. -/
theorem other_started (L : Libs) (g : Genesis) (m : Modules) :
    otherReads A L (started A g m) = nothingStored := by
  rw [started_eq]
  rfl

theorem other_of_preserved {L : Libs} {m : Modules}
    (h : reads A L (restarted A m) = reads A L m) : otherReads A L m = nothingStored :=
  (congrArg Reads.other h).symm.trans (other_started L _ _)

/-- Whatever the modules have been through, starting again from their export gives
the same answers exactly when nothing but parameters, mint records and the supply
counter was stored. -/
theorem export_preserves_iff (A : App) (L : Libs) (hparse : ReadsBack A) (g : Genesis)
    (outside : Modules) (inputs : List (Input A)) :
    reads A L (restarted A (run (step L) (started A g outside) inputs)) =
      reads A L (run (step L) (started A g outside) inputs) ↔
    otherReads A L (run (step L) (started A g outside) inputs) = nothingStored := by
  have hcarried := carried_started hparse (reached_keyed L g outside inputs)
  refine ⟨other_of_preserved, fun hother => ?_⟩
  rw [reads, reads, hcarried, hother, restarted, other_started]

end Restart

section EndedBlocks
variable {A : App} {L : Libs} {m m' : Modules} {u : Unit}

def HashStored (m : Modules) : Prop := (m.privacy.get latestPQCHashKey).isSome

/-- Setting a key takes no key away. -/
theorem isSome_get_set {s : KVStore} {key : List UInt8} (h : (s.get key).isSome)
    (k v : List UInt8) : ((s.set k v).get key).isSome := by
  rw [Store.get_set]
  split_ifs
  · rfl
  · exact h

theorem endBlock_stores {ctx : Ctx A} {header : HashChain.Header}
    (h : (Input.endBlock ctx header).exec L m = .ok u m') : HashStored m' := by
  simp only [Input.exec, storeBlockHash, HashChain.endBlock_ok, bind_ok, gets_ok, liftM_ok,
    modifyStore_ok] at h
  obtain ⟨_, _, -, _, _, ⟨rfl, rfl⟩, _, _, ⟨⟨⟩, rfl⟩, rfl⟩ := h
  rw [HashStored, Store.get_set_self]
  rfl

theorem endBlock_returns (m : Modules) (ctx : Ctx A) (header : HashChain.Header) :
    ∃ m', (Input.endBlock ctx header).exec L m = .ok () m' := by
  have hprune := pruneOldPrices_eq m.world ctx.height
  simp only [Input.exec, storeBlockHash, HashChain.endBlock_ok, OracleMsgServer.endBlock, bind_ok,
    onWorld_ok, gets_ok, liftM_ok, modifyStore_ok]
  exact ⟨_, (), _, ⟨_, hprune, rfl⟩, _, _, ⟨rfl, rfl⟩, _, _, ⟨rfl, rfl⟩, rfl⟩

theorem privacyMsg_hash {msg : PrivacyMsg A} {w w' : PrivacyState}
    (hw : (w.store.get latestPQCHashKey).isSome)
    (h : msg.handle L.coins L.shards w = .ok () w') : (w'.store.get latestPQCHashKey).isSome := by
  cases msg with
  | initCommitment ctx msg =>
      obtain ⟨creator, -, hstore⟩ := initCommitment_ok h
      rw [hstore]
      exact isSome_get_set hw _ _
  | tfheSubmit monikers n msg =>
      simp only [PrivacyMsg.handle, bind_ok, onStore_ok, pure_ok] at h
      obtain ⟨_, _, ⟨store, hsubmit, rfl⟩, -, rfl⟩ := h
      obtain ⟨sender, shards, -, -, -, rfl⟩ := tfheSubmit_ok.mp hsubmit
      exact isSome_get_set (isSome_get_set (isSome_get_set hw _ _) _ _) _ _

/-- The hash of a block is replaced but never removed. -/
theorem step_hash (i : Input A) (hm : HashStored m) : HashStored (step L m i) := by
  have hworld : ∀ (x : WorldExec Unit) {u : Unit} {m' : Modules}, onWorld x m = .ok u m' →
      HashStored m' := by
    intro x u m' h
    obtain ⟨_, -, rfl⟩ := onWorld_ok.mp h
    exact hm
  apply commit_preserves hm
  intro _ m' h
  cases i with
  | event e => exact hworld _ h
  | submitPrice ctx msg => exact hworld _ h
  | beginBlock ctx => exact hworld _ h
  | endBlock ctx header => exact endBlock_stores h
  | confidential tfhe call =>
      obtain ⟨_, -, rfl⟩ := onAccounts_ok.mp h
      exact hm
  | privacy msg =>
      obtain ⟨_, hmsg, rfl⟩ := onPrivacy_ok.mp h
      exact privacyMsg_hash (w := ⟨m.world.chain, m.privacy⟩) hm hmsg
  | environment outside staking =>
      simp only [Input.exec, modifyStore_ok] at h
      subst h
      exact hm

/-- No chain that has ended a block survives its export. -/
theorem ended_block_lost (start : Modules) (before later : List (Input A)) (ctx : Ctx A)
    (header : HashChain.Header) :
    reads A L (restarted A (run (step L) start (before ++ .endBlock ctx header :: later))) ≠
      reads A L (run (step L) start (before ++ .endBlock ctx header :: later)) := by
  have hended : HashStored (step L (run (step L) start before) (.endBlock ctx header)) := by
    obtain ⟨m', hm'⟩ := endBlock_returns (L := L) (run (step L) start before) ctx header
    rw [step, commit_ok hm']
    exact endBlock_stores hm'
  have hstored : HashStored (run (step L) start (before ++ .endBlock ctx header :: later)) := by
    rw [run_append, run_cons]
    exact run_invariant HashStored (fun _ => True) (fun _ i _ h => step_hash i h) later _ hended
      fun _ _ => trivial
  intro h
  have hnone : (run (step L) start (before ++ .endBlock ctx header :: later)).privacy.get
      latestPQCHashKey = none := congrArg OtherReads.latestPQCHash (other_of_preserved h)
  rw [HashStored, hnone] at hstored
  exact absurd hstored (by decide)

end EndedBlocks

section Forgotten
open Devnet SubmitAgreement

/-- The value of a decimal text. -/
def decimalValue : List Char → ℤ
  | '-' :: digits => -(Nat.ofDigitChars 10 digits 0 : ℤ)
  | digits => (Nat.ofDigitChars 10 digits 0 : ℤ)

theorem decimalValue_toString (i : ℤ) : decimalValue (toString i).toList = i := by
  have hdigits : ∀ n : ℕ, Nat.ofDigitChars 10 (Nat.repr n).toList 0 = n := by
    intro n
    rw [Nat.repr_eq_ofList_toDigits, String.toList_ofList, Nat.ofDigitChars_ten_toDigits]
  cases i with
  | ofNat n =>
      rw [toString_ofNat]
      unfold decimalValue
      split
      · next digits hsign =>
          have hdigit := isDigit_of_mem_repr (n := n) (c := '-') (by rw [hsign]; simp)
          exact absurd hdigit (by decide)
      · rw [hdigits, Int.ofNat_eq_natCast]
  | negSucc n =>
      rw [toString_negSucc]
      simp only [decimalValue, hdigits]
      omega

def parseDecimal (text : String) : Option SdkInt :=
  if h : (decimalValue text.toList).natAbs < intBound then some ⟨decimalValue text.toList, h⟩
  else none

/-- The development chain with a parser of integers. -/
def decimalNet : App :=
  { devnet with
    newIntFromString := parseDecimal
    newIntFromString_zero := by decide +kernel }

theorem decimalNet_readsBack : ReadsBack decimalNet := by
  intro n
  have hvalue : decimalValue (toString n).toList = n.val := decimalValue_toString n.val
  show parseDecimal (toString n) = some n
  rw [parseDecimal, dif_pos (by rw [hvalue]; exact n.width)]
  exact congrArg some (SdkInt.ext_val hvalue)

def decimalBlock : Ctx decimalNet where
  height := 1
  time := 1700000000
  lockedCoins _ _ := .zero
  lockedCoins_nonneg _ _ := Int.le_refl 0
  lockedCoins_module _ _ _ := rfl

def moduleLibs : Libs := ⟨zeroKeccak, tenCoins, sampleLibs, fun _ => none⟩

/-- One submission makes a price. -/
def emptyFile : Genesis :=
  ⟨defaultStablecoinGenesis, { defaultOracleParams with minSubmissions := 1 }⟩

def surroundings : Modules := ⟨⟨treasury.blank, none, ∅, OracleChain.aliceOnly⟩, noAccounts, ∅⟩

/-- `alice` registers both keys, is credited with one hundred, submits a price and
makes a deposit. -/
def aliceBusy : List (Input decimalNet) :=
  [.event (.register ⟨decimalNet.text alice, List.replicate 2592 7, 10⟩),
    .confidential plainTfhe (.register alice tfheKey),
    .confidential plainTfhe (.mint decimalBlock alice 100 [1]),
    .submitPrice decimalBlock ⟨decimalNet.text alice, "ZYTC", some Dec.one⟩,
    .privacy (.initCommitment decimalBlock
      ⟨decimalNet.text alice, "10uzytc", List.replicate 32 1⟩)]

def busy : Modules := run (step moduleLibs) (started decimalNet emptyFile surroundings) aliceBusy

theorem busy_facts :
    ((otherReads decimalNet moduleLibs busy).zytdPQCKey alice).isSome ∧
    ((otherReads decimalNet moduleLibs busy).userTFHEPublicKey alice).isSome ∧
    ((otherReads decimalNet moduleLibs busy).zytdAccountState alice).publicCreditLimit = 100 ∧
    ((otherReads decimalNet moduleLibs busy).latestPrice "ZYTC").isSome ∧
    ((otherReads decimalNet moduleLibs busy).twap "ZYTC").isSome ∧
    ((otherReads decimalNet moduleLibs busy).commitment alice).isSome := by
  decide +kernel

/-- After a restart none of it is there. -/
theorem restart_forgets :
    ((otherReads decimalNet moduleLibs busy).zytdPQCKey alice).isSome ∧
    ((otherReads decimalNet moduleLibs busy).userTFHEPublicKey alice).isSome ∧
    ((otherReads decimalNet moduleLibs busy).zytdAccountState alice).publicCreditLimit = 100 ∧
    ((otherReads decimalNet moduleLibs busy).latestPrice "ZYTC").isSome ∧
    ((otherReads decimalNet moduleLibs busy).twap "ZYTC").isSome ∧
    ((otherReads decimalNet moduleLibs busy).commitment alice).isSome ∧
    otherReads decimalNet moduleLibs (restarted decimalNet busy) = nothingStored ∧
    reads decimalNet moduleLibs (restarted decimalNet busy) ≠
      reads decimalNet moduleLibs busy := by
  obtain ⟨hkey, hpublic, hlimit, hprice, htwap, hcommitment⟩ := busy_facts
  refine ⟨hkey, hpublic, hlimit, hprice, htwap, hcommitment, other_started _ _ _, fun h => ?_⟩
  rw [other_of_preserved h] at hcommitment
  exact absurd hcommitment (by decide)

/-- A file with a mint record. -/
def recordFile : Genesis where
  stablecoin := ⟨defaultStablecoinParams,
    [⟨decimalNet.text alice, "uzytc", .newInt 40, .newDecWithPrec 80 0, 1⟩], "40"⟩
  oracle := defaultOracleParams

def recordChain : Modules :=
  run (step moduleLibs) (started decimalNet recordFile surroundings) ([] : List (Input decimalNet))

theorem recordChain_facts :
    ((carriedReads decimalNet recordChain).mintRecord alice "uzytc").isSome ∧
    (carriedReads decimalNet recordChain).totalSupply = .newInt 40 := by
  decide +kernel

theorem record_survives :
    ((carriedReads decimalNet recordChain).mintRecord alice "uzytc").isSome ∧
    (carriedReads decimalNet recordChain).totalSupply = .newInt 40 ∧
    reads decimalNet moduleLibs (restarted decimalNet recordChain) =
      reads decimalNet moduleLibs recordChain := by
  refine ⟨recordChain_facts.1, recordChain_facts.2, ?_⟩
  apply (export_preserves_iff decimalNet moduleLibs decimalNet_readsBack recordFile surroundings
    []).mpr
  exact other_started moduleLibs recordFile surroundings

end Forgotten

end Zytherion.GenesisExport
