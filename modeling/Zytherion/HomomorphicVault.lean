import Zytherion.GoCall

/-!
# The homomorphic vault contract

The contract keeps one ciphertext, the encrypted sum of its deposits. The first
deposit is stored as it comes. Each later one is added to the stored ciphertext by
a query to the chain, which fails on anything that is not a ciphertext. A first
deposit of arbitrary bytes therefore stays in the vault for good, and with it every
later deposit fails.
-/
namespace Zytherion.HomomorphicVault

open GoCall

structure VaultConfig where
  label : String
  owner : String
deriving DecidableEq, Repr

structure VaultStats where
  depositCount : UInt64
  transferCount : UInt64
deriving DecidableEq, Repr

/-- The three items of the contract's storage. -/
structure Storage where
  vaultConfig : Option VaultConfig
  vaultStats : Option VaultStats
  encryptedBalance : Option (List UInt8)
deriving DecidableEq, Repr

inductive ContractError where
  | std (reason : String)
  | unauthorized
  | tfheError (reason : String)
  | noBalance
  | emptyDeposit
deriving DecidableEq, Repr

structure InstantiateMsg where
  label : String
  owner : String

inductive ExecuteMsg where
  | deposit (encryptedAmount : List UInt8) (memo : Option String)
  | transfer (recipient : String) (encryptedAmount : List UInt8) (memo : Option String)

inductive TFHECustomQuery where
  | tfheAdd (ct1 ct2 : List UInt8)

structure TFHECiphertextResponse where
  ciphertext : List UInt8
  sizeBytes : UInt64

/-- What a query to the chain comes back with. -/
inductive QuerierResult where
  | ok (raw : List UInt8)
  | contractErr (reason : String)
  | systemErr (reason : String)

/-- What the chain provides to the contract. -/
structure Deps where
  addrValidate : String → Except String Unit
  rawQuery : TFHECustomQuery → QuerierResult
  fromBinary : List UInt8 → Except String TFHECiphertextResponse

/-- The attributes of a response. -/
abbrev Response : Type := List (String × String)

abbrev Exec (α : Type) : Type := Call Storage ContractError α

def loadStats : Exec VaultStats :=
  lookup (fun s => s.vaultStats) (.std "homomorphic_vault::state::VaultStats not found")

def loadConfig : Exec VaultConfig :=
  lookup (fun s => s.vaultConfig) (.std "homomorphic_vault::state::VaultConfig not found")

def saveStats (stats : VaultStats) : Exec Unit :=
  modifyStore fun s => { s with vaultStats := some stats }

def memoAttribute (memo : Option String) : Response := memo.toList.map fun m => ("memo", m)

variable (D : Deps)

def instantiate (msg : InstantiateMsg) : Exec Response := do
  ofExcept ((D.addrValidate msg.owner).mapError .std)
  modifyStore fun s => { s with vaultConfig := some ⟨msg.label, msg.owner⟩ }
  saveStats ⟨0, 0⟩
  return [("action", "instantiate"), ("label", msg.label), ("owner", msg.owner)]

/-- The sum as the chain computes it. An error of the chain's own is unwrapped, which
panics; an error of the query and an unreadable response are errors of the contract. -/
def homomorphicAdd (ct1 ct2 : List UInt8) : Exec (List UInt8) := fun s =>
  match D.rawQuery (.tfheAdd ct1 ct2) with
  | .systemErr reason => .panic reason
  | .contractErr reason => .err (.tfheError ("TFHE query failed: " ++ reason)) s
  | .ok raw =>
      match D.fromBinary raw with
      | .error reason => .err (.tfheError ("failed to parse TFHE response: " ++ reason)) s
      | .ok result => .ok result.ciphertext s

def accumulate (existing : Option (List UInt8)) (newCt : List UInt8) : Exec (List UInt8) :=
  match existing with
  | some existingCt => homomorphicAdd D existingCt newCt
  | none => pure newCt

def executeDeposit (encryptedAmount : List UInt8) (memo : Option String) : Exec Response := do
  require (encryptedAmount != []) .emptyDeposit
  let existing ← gets fun s => s.encryptedBalance
  let updatedBalance ← accumulate D existing encryptedAmount
  modifyStore fun s => { s with encryptedBalance := some updatedBalance }
  let stats ← loadStats
  -- built for release, where the counters wrap
  saveStats { stats with depositCount := stats.depositCount + 1 }
  return [("action", "deposit"), ("ct_size_bytes", toString updatedBalance.length)] ++
    memoAttribute memo

/-- A transfer only counts: neither the balance nor the recipient is touched. -/
def executeTransfer (sender recipient : String) (encryptedAmount : List UInt8)
    (memo : Option String) : Exec Response := do
  let config ← loadConfig
  require (sender == config.owner) .unauthorized
  let balanceCt ← lookup (fun s => s.encryptedBalance) .noBalance
  require (balanceCt != []) .noBalance
  let stats ← loadStats
  saveStats { stats with transferCount := stats.transferCount + 1 }
  return [("action", "transfer"), ("to", recipient),
    ("transfer_ct_size", toString encryptedAmount.length)] ++ memoAttribute memo

def execute (sender : String) : ExecuteMsg → Exec Response
  | .deposit encryptedAmount memo => executeDeposit D encryptedAmount memo
  | .transfer recipient encryptedAmount memo =>
      executeTransfer sender recipient encryptedAmount memo

/-- A message that fails leaves the storage as it was. -/
def deliver (s : Storage) (m : String × ExecuteMsg) : Storage := commit (execute D m.1 m.2) s

/-- Adding fails unless both operands are well-formed ciphertexts, and then gives one.
There are such ciphertexts, and none of them is empty. -/
structure AddLaws (wellFormed : List UInt8 → Prop) : Prop where
  nonempty : ∀ ct, wellFormed ct → ct ≠ []
  inhabited : ∃ ct, wellFormed ct
  fails : ∀ a b, ¬ (wellFormed a ∧ wellFormed b) → ∀ raw, D.rawQuery (.tfheAdd a b) ≠ .ok raw
  adds : ∀ a b, wellFormed a → wellFormed b → ∃ raw result, D.rawQuery (.tfheAdd a b) = .ok raw ∧
    D.fromBinary raw = .ok result ∧ wellFormed result.ciphertext

/-- Whoever deposits a well-formed ciphertext, it is accepted. -/
def AcceptsDeposits (wellFormed : List UInt8 → Prop) (s : Storage) : Prop :=
  ∀ sender ct memo, wellFormed ct → ∃ response t,
    execute D sender (.deposit ct memo) s = .ok response t

/-- The first bytes that a run deposits. -/
def firstDeposit : List (String × ExecuteMsg) → Option (List UInt8)
  | [] => none
  | (_, .deposit ct _) :: rest => if ct = [] then firstDeposit rest else some ct
  | (_, .transfer _ _ _) :: rest => firstDeposit rest

theorem AddLaws.operands {D : Deps} {wellFormed : List UInt8 → Prop} (h : AddLaws D wellFormed)
    {a b raw : List UInt8} (hraw : D.rawQuery (.tfheAdd a b) = .ok raw) :
    wellFormed a ∧ wellFormed b :=
  Classical.byContradiction fun hbad => h.fails a b hbad raw hraw

section Steps
variable {D} {wellFormed : List UInt8 → Prop} {s t : Storage} {response : Response}

theorem instantiate_ok {msg : InstantiateMsg} (h : instantiate D msg s = .ok response t) :
    t = { s with vaultConfig := some ⟨msg.label, msg.owner⟩, vaultStats := some ⟨0, 0⟩ } := by
  simp only [instantiate, saveStats, bind_ok, ofExcept_ok, modifyStore_ok, pure_ok] at h
  obtain ⟨_, _, ⟨-, rfl⟩, _, _, rfl, _, _, rfl, -, rfl⟩ := h
  rfl

theorem homomorphicAdd_ok {ct1 ct2 sum : List UInt8} :
    homomorphicAdd D ct1 ct2 s = .ok sum t ↔ ∃ raw result, D.rawQuery (.tfheAdd ct1 ct2) = .ok raw ∧
      D.fromBinary raw = .ok result ∧ result.ciphertext = sum ∧ s = t := by
  unfold homomorphicAdd
  cases D.rawQuery (.tfheAdd ct1 ct2) with
  | systemErr reason => simp
  | contractErr reason => simp
  | ok raw =>
      cases hread : D.fromBinary raw with
      | error reason => simp [hread]
      | ok result => simp [hread]

theorem accumulate_keeps {existing : Option (List UInt8)} {ct sum : List UInt8}
    (h : accumulate D existing ct s = .ok sum t) : s = t := by
  cases existing with
  | none => exact ((pure_ok _ _).mp h).2
  | some existingCt =>
      obtain ⟨_, _, -, -, -, rfl⟩ := homomorphicAdd_ok.mp h
      rfl

theorem executeDeposit_ok {ct : List UInt8} {memo : Option String} :
    (∃ response, executeDeposit D ct memo s = .ok response t) ↔
      ct ≠ [] ∧ ∃ sum stats, accumulate D s.encryptedBalance ct s = .ok sum s ∧
        s.vaultStats = some stats ∧
        t = { s with
          encryptedBalance := some sum
          vaultStats := some { stats with depositCount := stats.depositCount + 1 } } := by
  simp only [executeDeposit, loadStats, saveStats, bind_ok, require_ok, bne_iff_ne, gets_ok,
    modifyStore_ok, lookup_ok, pure_ok]
  constructor
  · rintro ⟨_, _, _, ⟨hne, rfl⟩, _, _, ⟨rfl, rfl⟩, sum, _, hsum, _, _, rfl, stats, _, ⟨hstats, rfl⟩,
      _, _, rfl, -, rfl⟩
    obtain rfl := accumulate_keeps hsum
    exact ⟨hne, sum, stats, hsum, hstats, rfl⟩
  · rintro ⟨hne, sum, stats, hsum, hstats, rfl⟩
    exact ⟨_, (), _, ⟨hne, rfl⟩, _, _, ⟨rfl, rfl⟩, sum, _, hsum, (), _, rfl, stats, _,
      ⟨hstats, rfl⟩, (), _, rfl, rfl, rfl⟩

/-- Only the owner transfers, and a transfer changes nothing but the count. -/
theorem executeTransfer_ok {sender recipient : String} {ct : List UInt8} {memo : Option String}
    (h : executeTransfer sender recipient ct memo s = .ok response t) :
    ∃ config balance stats, s.vaultConfig = some config ∧ sender = config.owner ∧
      s.encryptedBalance = some balance ∧ balance ≠ [] ∧ s.vaultStats = some stats ∧
      t = { s with
        vaultStats := some { stats with transferCount := stats.transferCount + 1 } } := by
  obtain ⟨config, _, hload, h⟩ := (bind_ok _ _).mp h
  obtain ⟨hconfig, rfl⟩ := (lookup_ok ..).mp hload
  obtain ⟨_, _, hsender, h⟩ := (bind_ok _ _).mp h
  obtain ⟨howner, rfl⟩ := (require_ok ..).mp hsender
  obtain ⟨balance, _, hload, h⟩ := (bind_ok _ _).mp h
  obtain ⟨hbalance, rfl⟩ := (lookup_ok ..).mp hload
  obtain ⟨_, _, hheld, h⟩ := (bind_ok _ _).mp h
  obtain ⟨hne, rfl⟩ := (require_ok ..).mp hheld
  obtain ⟨stats, _, hload, h⟩ := (bind_ok _ _).mp h
  obtain ⟨hstats, rfl⟩ := (lookup_ok ..).mp hload
  obtain ⟨_, u, hsaved, h⟩ := (bind_ok _ _).mp h
  obtain rfl : u = t := ((pure_ok _ _).mp h).2
  have hcount := (modifyStore_ok ..).mp hsaved
  exact ⟨config, balance, stats, hconfig, beq_iff_eq.mp howner, hbalance, bne_iff_ne.mp hne,
    hstats, hcount.symm⟩

/-- With its counters in place, a vault accepts well-formed deposits exactly when it
is empty or holds a well-formed ciphertext. -/
theorem acceptsDeposits_iff (hlaws : AddLaws D wellFormed) (hstats : s.vaultStats.isSome = true) :
    AcceptsDeposits D wellFormed s ↔ ∀ ct, s.encryptedBalance = some ct → wellFormed ct := by
  obtain ⟨stats, hstats⟩ := Option.isSome_iff_exists.mp hstats
  constructor
  · intro h existing hexisting
    obtain ⟨ct, hct⟩ := hlaws.inhabited
    obtain ⟨response, t, hexec⟩ := h "" ct none hct
    obtain ⟨-, sum, _, hsum, -⟩ := executeDeposit_ok.mp ⟨response, hexec⟩
    rw [hexisting] at hsum
    obtain ⟨raw, _, hraw, -⟩ := homomorphicAdd_ok.mp hsum
    exact (hlaws.operands hraw).1
  · intro h sender ct memo hct
    have hsum : ∃ sum, accumulate D s.encryptedBalance ct s = .ok sum s := by
      cases hexisting : s.encryptedBalance with
      | none => exact ⟨ct, rfl⟩
      | some existing =>
          obtain ⟨raw, result, hraw, hread, -⟩ := hlaws.adds existing ct (h existing hexisting) hct
          exact ⟨_, homomorphicAdd_ok.mpr ⟨raw, result, hraw, hread, rfl, rfl⟩⟩
    obtain ⟨sum, hsum⟩ := hsum
    obtain ⟨response, hexec⟩ := executeDeposit_ok.mpr
      ⟨hlaws.nonempty ct hct, sum, stats, hsum, hstats, rfl⟩
    exact ⟨response, _, hexec⟩

end Steps

section Runs
variable {D} {wellFormed : List UInt8 → Prop} {s : Storage}

/-- The vault holds bytes that are well-formed exactly when `first` is. -/
def Like (wellFormed : List UInt8 → Prop) (first : List UInt8) (s : Storage) : Prop :=
  s.vaultStats.isSome = true ∧
    ∃ ct, s.encryptedBalance = some ct ∧ (wellFormed ct ↔ wellFormed first)

/-- A sum is only stored over a well-formed ciphertext, and is one. -/
theorem deliver_like (hlaws : AddLaws D wellFormed) {first : List UInt8}
    (h : Like wellFormed first s) (m : String × ExecuteMsg) :
    Like wellFormed first (deliver D s m) := by
  apply commit_preserves h
  intro response t hexec
  obtain ⟨hstats, ct, hct, hiff⟩ := h
  obtain ⟨sender, msg⟩ := m
  cases msg with
  | transfer recipient amount memo =>
      obtain ⟨_, _, _, -, -, -, -, -, rfl⟩ := executeTransfer_ok hexec
      exact ⟨rfl, ct, hct, hiff⟩
  | deposit amount memo =>
      obtain ⟨-, sum, stats, hsum, -, rfl⟩ := executeDeposit_ok.mp ⟨response, hexec⟩
      rw [hct] at hsum
      obtain ⟨raw, result, hraw, hread, rfl, -⟩ := homomorphicAdd_ok.mp hsum
      obtain ⟨hold, hnew⟩ := hlaws.operands hraw
      obtain ⟨raw', result', hraw', hread', hwell⟩ := hlaws.adds ct amount hold hnew
      cases hraw.symm.trans hraw'
      cases hread.symm.trans hread'
      exact ⟨rfl, _, rfl, iff_of_true hwell (hiff.mp hold)⟩

theorem run_like (hlaws : AddLaws D wellFormed) {first : List UInt8} (h : Like wellFormed first s)
    (ms : List (String × ExecuteMsg)) : Like wellFormed first (run (deliver D) s ms) :=
  run_invariant (Like wellFormed first) (fun _ => True)
    (fun _ m _ hs => deliver_like hlaws hs m) ms s h fun _ _ => trivial

/-- An empty vault takes whatever is deposited first, and nothing else changes it. -/
theorem deliver_empty (hstats : s.vaultStats.isSome = true) (hempty : s.encryptedBalance = none)
    (m : String × ExecuteMsg) :
    (deliver D s m).vaultStats.isSome = true ∧
      (deliver D s m).encryptedBalance = firstDeposit [m] := by
  obtain ⟨sender, msg⟩ := m
  cases msg with
  | transfer recipient amount memo =>
      rcases commit_cases (execute D sender (.transfer recipient amount memo)) s with
        ⟨r, h⟩ | ⟨-, h⟩
      · obtain ⟨_, balance, _, -, -, hbalance, -⟩ := executeTransfer_ok h
        simp [hempty] at hbalance
      · unfold deliver
        rw [h]
        exact ⟨hstats, hempty⟩
  | deposit amount memo =>
      obtain ⟨stats, hsome⟩ := Option.isSome_iff_exists.mp hstats
      by_cases hne : amount = []
      · have hsame : deliver D s (sender, .deposit amount memo) = s := by
          apply commit_of_not_ok
          intro response t h
          exact (executeDeposit_ok.mp ⟨response, h⟩).1 hne
        rw [hsame]
        simp [firstDeposit, hne, hstats, hempty]
      · have hsum : accumulate D s.encryptedBalance amount s = .ok amount s := by
          rw [hempty]
          rfl
        obtain ⟨response, h⟩ := executeDeposit_ok.mpr ⟨hne, amount, stats, hsum, hsome, rfl⟩
        have hnew := commit_ok (x := execute D sender (.deposit amount memo)) h
        unfold deliver
        rw [hnew]
        simp [firstDeposit, hne]

theorem firstDeposit_cons (m : String × ExecuteMsg) (ms : List (String × ExecuteMsg)) :
    firstDeposit (m :: ms) = (firstDeposit [m]).or (firstDeposit ms) := by
  obtain ⟨sender, msg⟩ := m
  cases msg with
  | transfer recipient amount memo => rfl
  | deposit amount memo =>
      by_cases hne : amount = []
      · simp [firstDeposit, hne]
      · simp [firstDeposit, hne]

/-- After a run from an empty vault, what is stored is well-formed exactly when what
was deposited first is. -/
theorem run_first (hlaws : AddLaws D wellFormed) (hstats : s.vaultStats.isSome = true)
    (hempty : s.encryptedBalance = none) (ms : List (String × ExecuteMsg)) :
    (run (deliver D) s ms).vaultStats.isSome = true ∧
      ((∀ ct, (run (deliver D) s ms).encryptedBalance = some ct → wellFormed ct) ↔
        ∀ ct, firstDeposit ms = some ct → wellFormed ct) := by
  induction ms generalizing s with
  | nil => exact ⟨hstats, by simp [hempty, firstDeposit]⟩
  | cons m ms ih =>
      obtain ⟨hstats', hbalance⟩ := deliver_empty (D := D) hstats hempty m
      rw [run_cons, firstDeposit_cons]
      cases hfirst : firstDeposit [m] with
      | none => simpa [hfirst] using ih hstats' (hbalance.trans hfirst)
      | some first =>
          have hlike : Like wellFormed first (deliver D s m) :=
            ⟨hstats', first, hbalance.trans hfirst, Iff.rfl⟩
          obtain ⟨hkept, ct, hct, hiff⟩ := run_like hlaws hlike ms
          refine ⟨hkept, ?_⟩
          simpa [hct] using hiff

end Runs

/-- After any run of deposits and transfers by anyone, the vault accepts every
well-formed deposit exactly when the first bytes deposited, if any, were a well-formed
ciphertext. -/
theorem accepts_deposits_iff (D : Deps) (wellFormed : List UInt8 → Prop)
    (hlaws : AddLaws D wellFormed) (msg : InstantiateMsg) (response : Response) (s : Storage)
    (hinit : instantiate D msg ⟨none, none, none⟩ = .ok response s)
    (ms : List (String × ExecuteMsg)) :
    AcceptsDeposits D wellFormed (run (deliver D) s ms) ↔
      ∀ ct, firstDeposit ms = some ct → wellFormed ct := by
  have hs := instantiate_ok hinit
  obtain ⟨hstats, hiff⟩ := run_first hlaws (s := s) (by rw [hs]; rfl) (by rw [hs]) ms
  rw [acceptsDeposits_iff hlaws hstats, hiff]

/-- A chain whose ciphertexts start with a one, and whose sum is the first operand. -/
def sampleDeps : Deps where
  addrValidate _ := .ok ()
  rawQuery
    | .tfheAdd ct1 ct2 => if ct1.head? = some 1 ∧ ct2.head? = some 1 then .ok ct1
        else .contractErr "deserialization failed"
  fromBinary raw := .ok ⟨raw, 0⟩

def startsWithOne (ct : List UInt8) : Prop := ct.head? = some 1

theorem sampleDeps_laws : AddLaws sampleDeps startsWithOne where
  nonempty ct h hnil := by simp [startsWithOne, hnil] at h
  inhabited := ⟨[1], rfl⟩
  fails a b h raw hraw := by
    simp only [startsWithOne] at h
    simp [sampleDeps, h] at hraw
  adds a b ha hb := ⟨a, ⟨a, 0⟩, if_pos ⟨ha, hb⟩, rfl, ha⟩

def afterInstantiate : Storage := ⟨some ⟨"vault", "alice"⟩, some ⟨0, 0⟩, none⟩

/-- Two deposits and a transfer later, the vault still accepts deposits. -/
theorem accepts_deposits_sample : AcceptsDeposits sampleDeps startsWithOne
    (run (deliver sampleDeps) afterInstantiate [("bob", .deposit [1, 7] none),
      ("alice", .transfer "bob" [1] none), ("carol", .deposit [9] none)]) :=
  (accepts_deposits_iff sampleDeps startsWithOne sampleDeps_laws ⟨"vault", "alice"⟩ _
    afterInstantiate rfl _).mpr (by simp [firstDeposit, startsWithOne])

/-- One byte that is no ciphertext, deposited first by anyone, and every well-formed
deposit fails from then on. -/
theorem first_byte_blocks :
    instantiate sampleDeps ⟨"vault", "alice"⟩ ⟨none, none, none⟩ =
        .ok [("action", "instantiate"), ("label", "vault"), ("owner", "alice")] afterInstantiate ∧
      startsWithOne [1] ∧
      execute sampleDeps "bob" (.deposit [1] none)
          (run (deliver sampleDeps) afterInstantiate [("mallory", .deposit [0] none)]) =
        .err (.tfheError "TFHE query failed: deserialization failed")
          (run (deliver sampleDeps) afterInstantiate [("mallory", .deposit [0] none)]) :=
  ⟨rfl, rfl, rfl⟩

end Zytherion.HomomorphicVault
