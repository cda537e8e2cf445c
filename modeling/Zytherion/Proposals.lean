import Zytherion.Sentinel

/-!
# Preparing and checking a proposal

The proposer hashes the transactions it was handed, runs the clock from the hash
and puts the sentinel in front. A validator reads the sentinel, computes the hash
again over the transactions behind it, compares the proof with a constant and
runs the clock for as many steps as the sentinel claims.

Both read the previous block's hash from the store of the privacy module, the
zero hash where there is none.
-/
namespace Zytherion.Proposals

open GoCall KeyedStore Application LwrHash ByteStrings Sentinel

def latestPQCHashKey : List UInt8 := utf8 "pqc_hash/latest"

def lwrProposalHashKey : List UInt8 := utf8 "lwr_proposal_hash"

def povlProof : List UInt8 := utf8 "mock-groth16-proof-for-povl"

def getPrevPQCHash (store : KVStore) : List UInt8 :=
  (store.get latestPQCHashKey).getD (List.replicate 32 0)

def buildTxPayload (txs : List (List UInt8)) : List UInt8 := txs.flatten

structure RequestPrepareProposal where
  txs : List (List UInt8)
  maxTxBytes : Int64
  height : Int64

inductive ProposalStatus where
  | accept
  | reject (reason : String)

/-- The response, the store with what was written to it, and how often a step of
the clock was evaluated. -/
structure Processed where
  status : ProposalStatus
  store : KVStore
  evaluations : ℕ

section Handlers
variable (K : Keccak) (store : KVStore)

/-- The lattice hash, or the other hash in a buffer of its size. -/
def proposalHash (height : Int64) (txPayload prevHash : List UInt8) : List UInt8 :=
  match generateLWRBlockHash K txPayload prevHash with
  | .ok h => h
  | .error _ =>
      copied lwrHashSize (generateBlockHash K ⟨height, prevHash, [], [txPayload], [], [], 0⟩)

def povlSteps : ℕ := 10

def lwrPrepareProposal (req : RequestPrepareProposal) : Checked (List (List UInt8)) := do
  let txPayload := buildTxPayload req.txs
  let prevHash := getPrevPQCHash store
  let lwrHash := proposalHash K req.height txPayload prevHash
  let initialState ← slice lwrHash 0 32
  let povlRoot := (computePoVLChain K initialState povlSteps).1
  -- the root's first bytes are logged
  let _ ← slice povlRoot 0 8
  return buildPoVLSentinel lwrHash povlRoot povlSteps povlProof :: req.txs

def commitLWRHash (lwrHash : List UInt8) : KVStore := store.set lwrProposalHashKey lwrHash

def rejected (reason : String) (evaluations : ℕ) : Checked Processed :=
  .ok ⟨.reject reason, store, evaluations⟩

/-- What is checked once the sentinel has been read. -/
def checkSentinel (d : SentinelData) (userTxs : List (List UInt8)) : Checked Processed := do
  let txPayload := buildTxPayload userTxs
  let prevHash := getPrevPQCHash store
  match generateLWRBlockHash K txPayload prevHash with
  | .error e => rejected store ("LWR hash computation failed: " ++ e.text) 0
  | .ok expectedHash =>
      if d.claimedHash ≠ expectedHash then
        let claimed ← slice d.claimedHash 0 8
        let expected ← slice expectedHash 0 8
        rejected store ("LWR hash mismatch: claimed=" ++ encodeToString claimed ++ " expected=" ++
          encodeToString expected) 0
      else
        match validateLWRHash expectedHash with
        | .error e => rejected store ("LWR hash validation failed: " ++ e.text) 0
        | .ok _ =>
            if d.claimedProof ≠ povlProof then rejected store "PoVL proof verification failed" 0
            else
              let initialState ← slice expectedHash 0 32
              let (verified, evaluations) :=
                verifyPoVLChain K initialState d.claimedPoVLRoot d.claimedSteps
              if verified then
                let _ ← slice expectedHash 0 8
                let _ ← slice d.claimedPoVLRoot 0 8
                return ⟨.accept, commitLWRHash store expectedHash, evaluations⟩
              else rejected store "PoVL sequential state evolution mismatch" evaluations

def lwrProcessProposal (txs : List (List UInt8)) : Checked Processed := do
  match txs with
  | [] => rejected store "no transactions (missing PoVL sentinel)" 0
  | sentinel :: userTxs =>
      match ← parseSentinel sentinel with
      | .error reason => rejected store reason 0
      | .ok d => checkSentinel K store d userTxs

end Handlers

section Laws
variable {K : Keccak} {store : KVStore}

/-- The hash a proposal of these transactions commits to. -/
def expectedHash (K : Keccak) (store : KVStore) (txs : List (List UInt8)) : List UInt8 :=
  lwrHash K (buildTxPayload txs) (getPrevPQCHash store)

/-- The clock's state after some steps from the first 32 bytes of a hash. -/
def rootAfter (K : Keccak) (hash : List UInt8) (steps : ℕ) : List UInt8 :=
  (computePoVLChain K (hash.take 32) steps).1

@[simp] theorem expectedHash_length (K : Keccak) (store : KVStore) (txs : List (List UInt8)) :
    (expectedHash K store txs).length = 96 := lwrHash_length ..

@[simp] theorem rootAfter_length (hash : List UInt8) (steps : ℕ) :
    (rootAfter K hash steps).length = 32 := (computePoVLChain_spec K _ steps).1

theorem povlProof_length : povlProof.length = 27 := by
  rw [povlProof, utf8, byteArray_toList]
  decide +kernel

/-- The sentinel data of an honest proposer, had it run the clock for `steps`. -/
def claimOf (K : Keccak) (store : KVStore) (txs : List (List UInt8)) (steps : ℕ) : SentinelData :=
  ⟨expectedHash K store txs, rootAfter K (expectedHash K store txs) steps, steps, povlProof⟩

theorem claimOf_sized (K : Keccak) (store : KVStore) (txs : List (List UInt8))
    {version : List UInt8} {steps : ℕ} (hversion : version.length = 4) (hsteps : steps < 2 ^ 64) :
    Sized version (claimOf K store txs steps) :=
  ⟨hversion, expectedHash_length K store txs, rootAfter_length _ steps, hsteps, by
    rw [claimOf, povlProof_length]
    decide⟩

theorem buildPoVLSentinel_eq {d : SentinelData} (hhash : d.claimedHash.length = 96)
    (hroot : d.claimedPoVLRoot.length = 32) :
    buildPoVLSentinel d.claimedHash d.claimedPoVLRoot d.claimedSteps d.claimedProof =
      layout (bigEndian 4 lwrVersion) d [] := by
  have hcopied : copied lwrHashSize d.claimedHash = d.claimedHash := copied_of_length hhash
  have hcopied' : copied povlRootSize d.claimedPoVLRoot = d.claimedPoVLRoot :=
    copied_of_length hroot
  simp only [buildPoVLSentinel, hcopied, hcopied', layout, List.append_assoc, List.append_nil]
  rfl

/-- The sentinel of an honest proposer. -/
def sentinelFor (K : Keccak) (store : KVStore) (txs : List (List UInt8)) : List UInt8 :=
  layout (bigEndian 4 lwrVersion) (claimOf K store txs povlSteps) []

/-- The proposer always has a hash, so that it never falls back to the other one. -/
theorem lwrPrepareProposal_eq (req : RequestPrepareProposal) :
    lwrPrepareProposal K store req = .ok (sentinelFor K store req.txs :: req.txs) := by
  have hlog : 8 ≤ (rootAfter K (expectedHash K store req.txs) povlSteps).length := by simp
  show (slice (expectedHash K store req.txs) 0 32 >>= fun initialState =>
    slice (computePoVLChain K initialState povlSteps).1 0 8 >>= fun _ =>
      pure (buildPoVLSentinel (expectedHash K store req.txs)
        (computePoVLChain K initialState povlSteps).1 povlSteps povlProof :: req.txs)) = _
  rw [slice_zero (by simp), checked_ok_bind]
  show (slice (rootAfter K (expectedHash K store req.txs) povlSteps) 0 8 >>= fun _ => _) = _
  rw [slice_zero hlog, checked_ok_bind, sentinelFor,
    ← buildPoVLSentinel_eq (expectedHash_length K store req.txs) (rootAfter_length _ povlSteps)]
  rfl

/-- With the fields at their widths the checks always come to an answer, and the
clock runs only behind the hash and the proof. -/
theorem checkSentinel_eq {d : SentinelData} (hhash : d.claimedHash.length = 96)
    (hroot : d.claimedPoVLRoot.length = 32) (rest : List (List UInt8)) :
    checkSentinel K store d rest =
      if d.claimedHash ≠ expectedHash K store rest then
        rejected store ("LWR hash mismatch: claimed=" ++ encodeToString (d.claimedHash.take 8) ++
          " expected=" ++ encodeToString ((expectedHash K store rest).take 8)) 0
      else if d.claimedProof ≠ povlProof then rejected store "PoVL proof verification failed" 0
      else if rootAfter K (expectedHash K store rest) d.claimedSteps = d.claimedPoVLRoot then
        .ok ⟨.accept, commitLWRHash store (expectedHash K store rest), d.claimedSteps⟩
      else rejected store "PoVL sequential state evolution mismatch" d.claimedSteps := by
  have hlen := expectedHash_length K store rest
  have hgenerate : generateLWRBlockHash K (buildTxPayload rest) (getPrevPQCHash store) =
    .ok (expectedHash K store rest) := rfl
  have hvalid := validateLWRHash_ok hlen
  have hcount := (computePoVLChain_spec K ((expectedHash K store rest).take 32) d.claimedSteps).2
  simp only [checkSentinel, hgenerate, hvalid, slice_zero (by omega : 8 ≤ d.claimedHash.length),
    slice_zero (by omega : 8 ≤ (expectedHash K store rest).length),
    slice_zero (by omega : 32 ≤ (expectedHash K store rest).length),
    slice_zero (by omega : 8 ≤ d.claimedPoVLRoot.length), checked_ok_bind, verifyPoVLChain, hcount,
    beq_iff_eq]
  rfl

/-- Behind the right proof a step of the clock is evaluated as often as the
sentinel says, and otherwise never. -/
theorem checkSentinel_answers (K : Keccak) (store : KVStore) {d : SentinelData}
    (hhash : d.claimedHash.length = 96) (hroot : d.claimedPoVLRoot.length = 32)
    (rest : List (List UInt8)) :
    ∃ p, checkSentinel K store d rest = .ok p ∧
      (p.evaluations = 0 ∨ d.claimedProof = povlProof ∧ p.evaluations = d.claimedSteps) := by
  rw [checkSentinel_eq hhash hroot]
  split_ifs with h₁ h₂ h₃
  · exact ⟨_, rfl, .inl rfl⟩
  · exact ⟨_, rfl, .inl rfl⟩
  · exact ⟨_, rfl, .inr ⟨not_not.mp h₂, rfl⟩⟩
  · exact ⟨_, rfl, .inr ⟨not_not.mp h₂, rfl⟩⟩

theorem checkSentinel_accepts {d : SentinelData} (hhash : d.claimedHash.length = 96)
    (hroot : d.claimedPoVLRoot.length = 32) {rest : List (List UInt8)} {p : Processed}
    (hp : checkSentinel K store d rest = .ok p) (haccept : p.status = .accept) :
    d = claimOf K store rest d.claimedSteps := by
  rw [checkSentinel_eq hhash hroot] at hp
  split_ifs at hp with h₁ h₂ h₃
  · cases hp
    cases haccept
  · cases hp
    cases haccept
  · exact SentinelData.ext (not_not.mp h₁) h₃.symm rfl (not_not.mp h₂)
  · cases hp
    cases haccept

/-- The checks pass for a sentinel made for the rest, whatever its version and
whatever follows its proof. -/
theorem process_layout {version : List UInt8} {steps : ℕ} (hversion : version.length = 4)
    (hsteps : steps < 2 ^ 64) (trailing : List UInt8) (rest : List (List UInt8)) :
    lwrProcessProposal K store (layout version (claimOf K store rest steps) trailing :: rest) =
      .ok ⟨.accept, commitLWRHash store (expectedHash K store rest), steps⟩ := by
  have hsized := claimOf_sized K store rest hversion hsteps
  have hparse := parseSentinel_ok.mpr ⟨version, trailing, hsized, rfl⟩
  refine (checked_bind_ok _ _ _).mpr ⟨_, hparse, ?_⟩
  show checkSentinel K store (claimOf K store rest steps) rest = _
  rw [checkSentinel_eq hsized.hash hsized.root]
  simp only [claimOf, ne_eq, not_true_eq_false, if_false, if_true]

/-- The status is ACCEPT. -/
def Accepts (K : Keccak) (store : KVStore) (txs : List (List UInt8)) : Prop :=
  ∃ p, lwrProcessProposal K store txs = .ok p ∧ p.status = .accept

/-- Accepted in front of a list is a sentinel for that list, of any version, with
any number of steps and anything behind it. -/
theorem accepts_iff {sentinel : List UInt8} {rest : List (List UInt8)} :
    Accepts K store (sentinel :: rest) ↔
      ∃ version steps trailing, version.length = 4 ∧ steps < 2 ^ 64 ∧
        sentinel = layout version (claimOf K store rest steps) trailing := by
  constructor
  · rintro ⟨p, hp, haccept⟩
    obtain ⟨r, hparse, hr⟩ := (checked_bind_ok _ _ _).mp hp
    cases r with
    | error reason =>
        cases hr
        cases haccept
    | ok d =>
        obtain ⟨version, trailing, hsized, rfl⟩ := parseSentinel_ok.mp hparse
        have hclaim := checkSentinel_accepts hsized.hash hsized.root hr haccept
        exact ⟨version, d.claimedSteps, trailing, hsized.version, hsized.steps, by rw [← hclaim]⟩
  · rintro ⟨version, steps, trailing, hversion, hsteps, rfl⟩
    exact ⟨_, process_layout hversion hsteps trailing rest, rfl⟩

theorem sentinelFor_accepted (K : Keccak) (store : KVStore) (txs : List (List UInt8)) :
    Accepts K store (sentinelFor K store txs :: txs) :=
  accepts_iff.mpr ⟨_, _, _, bigEndian_length 4 lwrVersion, by decide, rfl⟩

/-- A proposer's list is accepted on the state it was prepared on. -/
theorem prepared_accepted (K : Keccak) (store : KVStore) (req : RequestPrepareProposal) :
    ∃ txs, lwrPrepareProposal K store req = .ok txs ∧ Accepts K store txs :=
  ⟨_, lwrPrepareProposal_eq req, sentinelFor_accepted K store req.txs⟩

/-- Only reading the sentinel may fail. -/
theorem process_returns {sentinel : List UInt8} {rest : List (List UInt8)} :
    (∃ p, lwrProcessProposal K store (sentinel :: rest) = .ok p) ↔
      ∃ r, parseSentinel sentinel = .ok r := by
  constructor
  · rintro ⟨p, hp⟩
    obtain ⟨r, hr, -⟩ := (checked_bind_ok _ _ _).mp hp
    exact ⟨r, hr⟩
  · rintro ⟨r, hr⟩
    cases r with
    | error reason => exact ⟨_, (checked_bind_ok _ _ _).mpr ⟨_, hr, rfl⟩⟩
    | ok d =>
        obtain ⟨version, trailing, hsized, -⟩ := parseSentinel_ok.mp hr
        obtain ⟨p, hp, -⟩ := checkSentinel_answers K store hsized.hash hsized.root rest
        exact ⟨p, (checked_bind_ok _ _ _).mpr ⟨_, hr, hp⟩⟩

/-- The first transaction is a marked record that ends inside the length of the
proof. -/
def CutShort (txs : List (List UInt8)) : Prop :=
  ∃ sentinel rest, txs = sentinel :: rest ∧
    HasMarker sentinel ∧ 144 ≤ sentinel.length ∧ sentinel.length < 148

theorem process_answers (K : Keccak) (store : KVStore) (txs : List (List UInt8)) :
    (∃ p, lwrProcessProposal K store txs = .ok p) ↔ ¬ CutShort txs := by
  cases txs with
  | nil => exact iff_of_true ⟨_, rfl⟩ (by rintro ⟨_, _, ⟨⟩, _⟩)
  | cons sentinel rest =>
      rw [process_returns, parseSentinel_returns, not_iff_not]
      constructor
      · intro h
        exact ⟨sentinel, rest, rfl, h⟩
      · rintro ⟨_, _, ⟨⟩, h⟩
        exact h

/-- A proposal is answered, ACCEPT or REJECT, unless its sentinel is cut short. -/
theorem proposal_answered_iff (K : Keccak) (store : KVStore) (txs : List (List UInt8)) :
    (∃ p, lwrProcessProposal K store txs = .ok p ∧
      (p.status = .accept ∨ ∃ reason, p.status = .reject reason)) ↔ ¬ CutShort txs := by
  rw [← process_answers K store]
  constructor
  · rintro ⟨p, hp, -⟩
    exact ⟨p, hp⟩
  · rintro ⟨p, hp⟩
    cases hstatus : p.status with
    | accept => exact ⟨p, hp, .inl hstatus⟩
    | reject reason => exact ⟨p, hp, .inr ⟨reason, hstatus⟩⟩

/-- Hash functions that return zero bytes. -/
def zeroKeccak : Keccak where
  sum256 _ := Vector.replicate 32 0
  shake256 _ _ := 0
  samples _ := lwrN
  samples_enough m := by decide +kernel

def shortSentinel : List UInt8 := bigEndian 4 lwrMarkerUint32 ++ List.replicate 140 0

theorem shortSentinel_panics : lwrProcessProposal zeroKeccak ∅ [shortSentinel] =
    .error "slice bounds out of range" := by
  have hparse : parseSentinel shortSentinel = .error "slice bounds out of range" := by
    rw [parseSentinel_eq, if_neg (by decide +kernel), if_neg (by decide +kernel),
      if_neg (by decide +kernel), readFields_eq (by decide +kernel), if_pos (by decide +kernel)]
  show (parseSentinel shortSentinel >>= fun _ => _) = _
  rw [hparse]
  rfl

/-! Sizes. -/

/-- The bytes of all transactions. -/
def totalSize (txs : List (List UInt8)) : ℕ := (txs.map List.length).sum

theorem layout_claimOf_length (K : Keccak) (store : KVStore) (rest : List (List UInt8))
    {version : List UInt8} {steps : ℕ} (hversion : version.length = 4) (hsteps : steps < 2 ^ 64)
    (trailing : List UInt8) :
    (layout version (claimOf K store rest steps) trailing).length = 175 + trailing.length := by
  rw [layout_length (claimOf_sized K store rest hversion hsteps), claimOf, povlProof_length]

theorem prepared_size (K : Keccak) (store : KVStore) (req : RequestPrepareProposal) :
    ∃ txs, lwrPrepareProposal K store req = .ok txs ∧ totalSize txs = 175 + totalSize req.txs := by
  refine ⟨_, lwrPrepareProposal_eq req, ?_⟩
  rw [totalSize, List.map_cons, List.sum_cons, sentinelFor,
    layout_claimOf_length K store req.txs (bigEndian_length 4 lwrVersion) (by decide)]
  rfl

/-- A list that fits is returned as one that fits exactly if there was room for
the sentinel. -/
theorem prepared_fits_iff (K : Keccak) (store : KVStore) (req : RequestPrepareProposal) :
    (∃ txs, lwrPrepareProposal K store req = .ok txs ∧
      (totalSize txs : ℤ) ≤ req.maxTxBytes.toInt) ↔
      (totalSize req.txs : ℤ) + 175 ≤ req.maxTxBytes.toInt := by
  obtain ⟨txs, hprepare, hsize⟩ := prepared_size K store req
  constructor
  · rintro ⟨txs', hprepare', hle⟩
    obtain rfl : txs = txs' := Except.ok.inj (hprepare.symm.trans hprepare')
    omega
  · intro hroom
    exact ⟨txs, hprepare, by omega⟩

/-- A block of one transaction that is as large as the limit. -/
def fullBlock : RequestPrepareProposal := ⟨[List.replicate 100 0], 100, 1⟩

theorem fullBlock_overflows : (totalSize fullBlock.txs : ℤ) ≤ fullBlock.maxTxBytes.toInt ∧
    ∃ txs, lwrPrepareProposal zeroKeccak ∅ fullBlock = .ok txs ∧
      fullBlock.maxTxBytes.toInt < totalSize txs := by
  obtain ⟨txs, hprepare, hsize⟩ := prepared_size zeroKeccak ∅ fullBlock
  have hfull : totalSize fullBlock.txs = 100 := by decide
  have hmax : fullBlock.maxTxBytes.toInt = 100 := by decide
  exact ⟨by omega, txs, hprepare, by omega⟩

/-! Work. -/

/-- Below the size of a sentinel with a proof nothing is evaluated; from there on
the number of steps is whatever eight bytes can say. -/
def workBound (size : ℕ) : ℕ := if size < 175 then 0 else 2 ^ 64 - 1

theorem workBound_mono : Monotone workBound := by
  intro m n h
  unfold workBound
  split_ifs <;> omega

/-- The clock runs behind the 27 bytes of the proof, so that a shorter sentinel
never starts it. -/
theorem process_work {sentinel : List UInt8} {rest : List (List UInt8)} {p : Processed}
    (h : lwrProcessProposal K store (sentinel :: rest) = .ok p) :
    p.evaluations ≤ workBound sentinel.length := by
  obtain ⟨r, hparse, hr⟩ := (checked_bind_ok _ _ _).mp h
  cases r with
  | error reason =>
      cases hr
      exact Nat.zero_le _
  | ok d =>
      obtain ⟨version, trailing, hsized, rfl⟩ := parseSentinel_ok.mp hparse
      obtain ⟨p', hp', hwork⟩ := checkSentinel_answers K store hsized.hash hsized.root rest
      obtain rfl : p' = p := Except.ok.inj (hp'.symm.trans hr)
      obtain hzero | ⟨hproof, hsteps⟩ := hwork
      · omega
      · have hlen := layout_length hsized trailing
        have hlt := hsized.steps
        rw [hproof, povlProof_length] at hlen
        rw [workBound, if_neg (by omega)]
        omega

/-- A sentinel that asks for the longest run of the clock, filled up to a size. -/
def longRun (K : Keccak) (store : KVStore) (size : ℕ) : List (List UInt8) :=
  [layout (bigEndian 4 lwrVersion) (claimOf K store [] (2 ^ 64 - 1))
    (List.replicate (size - 175) 0)]

theorem longRun_size {size : ℕ} (h : 175 ≤ size) : totalSize (longRun K store size) = size := by
  rw [longRun, totalSize, List.map_singleton, List.sum_singleton,
    layout_claimOf_length K store [] (bigEndian_length ..) (by decide), List.length_replicate]
  omega

theorem longRun_work (K : Keccak) (store : KVStore) (size : ℕ) :
    ∃ p, lwrProcessProposal K store (longRun K store size) = .ok p ∧
      p.evaluations = 2 ^ 64 - 1 :=
  ⟨_, process_layout (bigEndian_length 4 lwrVersion) (by decide) _ [], rfl⟩

/-- The evaluations are bounded by the size alone: a proposal is answered within
the bound, or reading its sentinel panics, before the clock starts. From 175 bytes
on there is a proposal of each size that takes the bound, which is no less than
all the runs eight bytes can ask for. -/
theorem proposal_work_bounded : (∀ (K : Keccak) (store : KVStore) (txs : List (List UInt8)),
      (∃ p, lwrProcessProposal K store txs = .ok p ∧ p.evaluations ≤ workBound (totalSize txs)) ∨
        ∃ sentinel rest e, txs = sentinel :: rest ∧ parseSentinel sentinel = .error e) ∧
    ∀ (K : Keccak) (store : KVStore) (size : ℕ), 175 ≤ size → ∃ txs p, totalSize txs = size ∧
      lwrProcessProposal K store txs = .ok p ∧ p.evaluations = workBound size := by
  constructor
  · intro K store txs
    cases txs with
    | nil => exact .inl ⟨_, rfl, Nat.zero_le _⟩
    | cons sentinel rest =>
        cases hparse : parseSentinel sentinel with
        | error e => exact .inr ⟨sentinel, rest, e, rfl, hparse⟩
        | ok r =>
            obtain ⟨p, hp⟩ := process_returns.mpr ⟨r, hparse⟩
            exact .inl ⟨p, hp, (process_work hp).trans (workBound_mono (by simp [totalSize]))⟩
  · intro K store size hsize
    obtain ⟨p, hp, hwork⟩ := longRun_work K store size
    refine ⟨_, p, longRun_size hsize, hp, ?_⟩
    rw [hwork, workBound, if_neg (by omega)]

theorem proposal_work_smallest : ∃ txs p, totalSize txs = 175 ∧
    lwrProcessProposal zeroKeccak ∅ txs = .ok p ∧ p.evaluations = workBound 175 :=
  proposal_work_bounded.2 zeroKeccak ∅ 175 (le_refl 175)

end Laws

end Zytherion.Proposals
