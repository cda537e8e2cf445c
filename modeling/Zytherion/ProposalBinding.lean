import Zytherion.Proposals

/-!
# What an accepted sentinel binds

The validator takes the version, the number of steps and the end of the record
as it finds them, so that an accepted sentinel is the proposer's own only if all
three are what the proposer writes.

The hash in it is taken over the concatenation of the transactions. It fixes
their bytes and their order, up to a collision, and not where one of them ends
and the next begins.
-/
namespace Zytherion.ProposalBinding

open GoCall LwrHash ByteStrings Sentinel Proposals

section Canonical
variable {K : Keccak} {store : KVStore} {rest : List (List UInt8)}

def versionWord (sentinel : List UInt8) : ℕ := bigEndianValue ((sentinel.drop 4).take 4)

def stepField (sentinel : List UInt8) : ℕ := bigEndianValue ((sentinel.drop 136).take 8)

/-- The proposer's version and number of steps, and nothing behind the proof. -/
structure Canonical (sentinel : List UInt8) : Prop where
  version : versionWord sentinel = lwrVersion
  steps : stepField sentinel = povlSteps
  length : sentinel.length = 175

theorem versionWord_layout {version : List UInt8} {d : SentinelData} (h : Sized version d)
    (trailing : List UInt8) : versionWord (layout version d trailing) = bigEndianValue version := by
  simp [versionWord, layout, h.version]

theorem stepField_layout {version : List UInt8} {d : SentinelData} (h : Sized version d)
    (trailing : List UInt8) : stepField (layout version d trailing) = d.claimedSteps := by
  have hcount : bigEndianValue (bigEndian 8 d.claimedSteps) = d.claimedSteps :=
    bigEndianValue_bigEndian h.steps
  simp [stepField, layout, drop_field, h.version, h.hash, h.root, hcount]

/-- The three things the checks leave open, read off a sentinel they accept. -/
theorem canonical_layout {version trailing : List UInt8} {steps : ℕ} (hversion : version.length = 4)
    (hsteps : steps < 2 ^ 64) : Canonical (layout version (claimOf K store rest steps) trailing) ↔
      version = bigEndian 4 lwrVersion ∧ steps = povlSteps ∧ trailing = [] := by
  have hsized := claimOf_sized K store rest hversion hsteps
  have hword := versionWord_layout hsized trailing
  have hcount := stepField_layout hsized trailing
  have hlen := layout_claimOf_length K store rest hversion hsteps trailing
  constructor
  · intro h
    refine ⟨?_, hcount.symm.trans h.steps, List.eq_nil_of_length_eq_zero ?_⟩
    · rw [← h.version, hword, bigEndian_of_length hversion]
    · have hlen' := h.length
      omega
  · rintro ⟨rfl, rfl, rfl⟩
    exact ⟨hword.trans (bigEndianValue_bigEndian (by decide)), hcount, hlen⟩

theorem prepared_canonical {sentinel : List UInt8} {maxTxBytes height : Int64}
    (h : lwrPrepareProposal K store ⟨rest, maxTxBytes, height⟩ = .ok (sentinel :: rest)) :
    Canonical sentinel := by
  rw [lwrPrepareProposal_eq] at h
  obtain rfl := (List.cons.inj (Except.ok.inj h)).1
  exact (canonical_layout (bigEndian_length ..) (by decide)).mpr ⟨rfl, rfl, rfl⟩

/-- An accepted sentinel is byte for byte the one the proposer builds for the
transactions behind it exactly if its version, its step count and its length are. -/
theorem accepted_canonical_iff (K : Keccak) (store : KVStore) (sentinel : List UInt8)
    (rest : List (List UInt8)) (maxTxBytes height : Int64)
    (haccept : Accepts K store (sentinel :: rest)) :
    lwrPrepareProposal K store ⟨rest, maxTxBytes, height⟩ = .ok (sentinel :: rest) ↔
      Canonical sentinel := by
  refine ⟨prepared_canonical, fun hcanonical => ?_⟩
  obtain ⟨version, steps, trailing, hversion, hsteps, rfl⟩ := accepts_iff.mp haccept
  obtain ⟨rfl, rfl, rfl⟩ := (canonical_layout hversion hsteps).mp hcanonical
  exact lwrPrepareProposal_eq _

end Canonical

/-! Sentinels of an empty block over an empty store that no proposer writes. -/

def emptyBlock : RequestPrepareProposal := ⟨[], 1000, 1⟩

def sentinelOf (version : ℕ) (steps : ℕ) (trailing : List UInt8) : List UInt8 :=
  layout (bigEndian 4 version) (claimOf zeroKeccak ∅ [] steps) trailing

theorem sentinelOf_accepted (version : ℕ) {steps : ℕ} (hsteps : steps < 2 ^ 64)
    (trailing : List UInt8) : Accepts zeroKeccak ∅ [sentinelOf version steps trailing] :=
  ⟨_, process_layout (bigEndian_length ..) hsteps trailing [], rfl⟩

theorem sentinelOf_prepared {version steps : ℕ} {trailing : List UInt8} (hsteps : steps < 2 ^ 64)
    (h : lwrPrepareProposal zeroKeccak ∅ emptyBlock = .ok [sentinelOf version steps trailing]) :
    bigEndian 4 version = bigEndian 4 lwrVersion ∧ steps = povlSteps ∧ trailing = [] :=
  (canonical_layout (bigEndian_length ..) hsteps).mp (prepared_canonical h)

/-- Another version, no steps at all, and a byte too many. -/
theorem noncanonical_accepted :
    (Accepts zeroKeccak ∅ [sentinelOf 7 10 []] ∧
      lwrPrepareProposal zeroKeccak ∅ emptyBlock ≠ .ok [sentinelOf 7 10 []]) ∧
    (Accepts zeroKeccak ∅ [sentinelOf 1 0 []] ∧
      lwrPrepareProposal zeroKeccak ∅ emptyBlock ≠ .ok [sentinelOf 1 0 []]) ∧
    (Accepts zeroKeccak ∅ [sentinelOf 1 10 [255]] ∧
      lwrPrepareProposal zeroKeccak ∅ emptyBlock ≠ .ok [sentinelOf 1 10 [255]]) := by
  refine ⟨⟨sentinelOf_accepted 7 (by decide) [], fun h => ?_⟩,
    ⟨sentinelOf_accepted 1 (by decide) [], fun h => ?_⟩,
    ⟨sentinelOf_accepted 1 (by decide) [255], fun h => ?_⟩⟩
  · exact absurd (sentinelOf_prepared (by decide) h).1 (by decide)
  · exact absurd (sentinelOf_prepared (by decide) h).2.1 (by decide)
  · exact absurd (sentinelOf_prepared (by decide) h).2.2 (by decide)

theorem accepted_canonical_honest : Accepts zeroKeccak ∅ [sentinelOf 1 10 []] ∧
    lwrPrepareProposal zeroKeccak ∅ emptyBlock = .ok [sentinelOf 1 10 []] :=
  ⟨sentinelOf_accepted 1 (by decide) [],
    (accepted_canonical_iff zeroKeccak ∅ _ [] 1000 1 (sentinelOf_accepted 1 (by decide) [])).mpr
      ((canonical_layout (bigEndian_length ..) (by decide)).mpr ⟨rfl, rfl, rfl⟩)⟩

section Binding
variable {K : Keccak} {store : KVStore}

/-- Distinct inputs of SHA3 and of the lattice hash with one digest. -/
structure Collision (K : Keccak) (prevHash x y : List UInt8) : Prop where
  distinct : x ++ prevHash ≠ y ++ prevHash
  sum256 : K.sum256 (x ++ prevHash) = K.sum256 (y ++ prevHash)
  lwr : lwrHash K x prevHash = lwrHash K y prevHash

theorem accepted_parse {sentinel : List UInt8} {rest : List (List UInt8)}
    (h : Accepts K store (sentinel :: rest)) :
    ∃ steps, parseSentinel sentinel = .ok (.ok (claimOf K store rest steps)) := by
  obtain ⟨version, steps, trailing, hversion, hsteps, rfl⟩ := accepts_iff.mp h
  have hsized := claimOf_sized K store rest hversion hsteps
  exact ⟨steps, parseSentinel_ok.mpr ⟨version, trailing, hsized, rfl⟩⟩

/-- One sentinel holds one hash. -/
theorem accepted_expectedHash {sentinel : List UInt8} {xs ys : List (List UInt8)}
    (hx : Accepts K store (sentinel :: xs)) (hy : Accepts K store (sentinel :: ys)) :
    expectedHash K store xs = expectedHash K store ys := by
  obtain ⟨steps, hparse⟩ := accepted_parse hx
  obtain ⟨steps', hparse'⟩ := accepted_parse hy
  have hclaim := Except.ok.inj (Except.ok.inj (hparse.symm.trans hparse'))
  exact congrArg SentinelData.claimedHash hclaim

theorem computeSeed_of_lwrHash {x y prevHash : List UInt8}
    (h : lwrHash K x prevHash = lwrHash K y prevHash) :
    K.sum256 (x ++ prevHash) = K.sum256 (y ++ prevHash) := by
  have htake := congrArg (List.take 32) h
  rw [lwrHash_take, lwrHash_take] at htake
  exact Vector.toList_inj.mp htake

/-- Two proposals accepted with one sentinel have the same bytes in the same
order, and the same transactions if these have the same lengths; or they are a
collision. -/
theorem sentinel_binds_bytes (K : Keccak) (store : KVStore) (sentinel : List UInt8)
    (xs ys : List (List UInt8)) (hx : Accepts K store (sentinel :: xs))
    (hy : Accepts K store (sentinel :: ys)) :
    (buildTxPayload xs = buildTxPayload ys ∧ (xs.map List.length = ys.map List.length → xs = ys)) ∨
      Collision K (getPrevPQCHash store) (buildTxPayload xs) (buildTxPayload ys) := by
  have hlwr := accepted_expectedHash hx hy
  by_cases hpayload : buildTxPayload xs = buildTxPayload ys
  · exact .inl ⟨hpayload, fun hlengths => List.eq_iff_flatten_eq.mpr ⟨hpayload, hlengths⟩⟩
  · exact .inr ⟨fun h => hpayload (List.append_cancel_right h), computeSeed_of_lwrHash hlwr, hlwr⟩

/-- Six bytes, as two transactions of three and as three of two. -/
def byThree : List (List UInt8) := [[1, 2, 3], [4, 5, 6]]

def byTwo : List (List UInt8) := [[1, 2], [3, 4], [5, 6]]

def sharedSentinel : List UInt8 := sentinelFor zeroKeccak ∅ byThree

theorem sharedSentinel_accepted : Accepts zeroKeccak ∅ (sharedSentinel :: byThree) ∧
    Accepts zeroKeccak ∅ (sharedSentinel :: byTwo) :=
  ⟨sentinelFor_accepted zeroKeccak ∅ byThree, sentinelFor_accepted zeroKeccak ∅ byTwo⟩

/-- One sentinel is accepted in front of both, and there is no collision. -/
theorem sharedSentinel_resplit : Accepts zeroKeccak ∅ (sharedSentinel :: byThree) ∧
    Accepts zeroKeccak ∅ (sharedSentinel :: byTwo) ∧ byThree ≠ byTwo ∧
    ¬ Collision zeroKeccak (getPrevPQCHash ∅) (buildTxPayload byThree) (buildTxPayload byTwo) :=
  ⟨sharedSentinel_accepted.1, sharedSentinel_accepted.2, by decide, fun h => h.distinct rfl⟩

theorem sharedSentinel_binds : Accepts zeroKeccak ∅ (sharedSentinel :: byThree) ∧
    Accepts zeroKeccak ∅ (sharedSentinel :: byTwo) ∧
    ((buildTxPayload byThree = buildTxPayload byTwo ∧
        (byThree.map List.length = byTwo.map List.length → byThree = byTwo)) ∨
      Collision zeroKeccak (getPrevPQCHash ∅) (buildTxPayload byThree) (buildTxPayload byTwo)) :=
  ⟨sharedSentinel_accepted.1, sharedSentinel_accepted.2,
    sentinel_binds_bytes zeroKeccak ∅ sharedSentinel byThree byTwo sharedSentinel_accepted.1
      sharedSentinel_accepted.2⟩

end Binding

end Zytherion.ProposalBinding
