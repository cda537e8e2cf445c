import Zytherion.Proposals

/-!
# The chain of block hashes

At the end of a block the privacy module hashes the height, the two hashes in the
block's header and the hash it stored for the block before, and stores the result
in its place. The input is laid out at fixed offsets and the old hash is appended
to it once more, in full, so that equal inputs have equal headers and equal
predecessors. Followed down the chain, one hash stands for all headers, up to a
collision at one of the heights.
-/
namespace Zytherion.HashChain

open GoCall KeyedStore LwrHash ByteStrings Proposals

/-- The fields of a block header that enter the hash. -/
@[ext] structure Header where
  appHash : List UInt8
  dataHash : List UInt8

def blockInput (height : Int64) (prevPQCHash : List UInt8) (header : Header) : BlockHashInput where
  height := height
  prevHash := prevPQCHash
  appHash := header.appHash
  transactions := [header.dataHash]
  poVLStateRoot := []
  poVLProof := []
  poVLStepCount := 0

section EndBlock
variable (K : Keccak)

def generateLWRBlockHashWithFallback (input : BlockHashInput) : List UInt8 :=
  let data := canonicalise input
  match generateLWRBlockHash K data input.prevHash with
  | .ok h => h
  | .error _ => generateBlockHash K input

/-- The stored hash, empty where there is none. -/
def latest (store : KVStore) : List UInt8 := (store.get latestPQCHashKey).getD []

def endBlock (height : Int64) (header : Header) (store : KVStore) : Checked KVStore := do
  let prevPQCHash := latest store
  let hashBytes := generateLWRBlockHashWithFallback K (blockInput height prevPQCHash header)
  let store := store.set latestPQCHashKey hashBytes
  -- the log line shows the first bytes
  let _ ← slice hashBytes 0 16
  return store

/-- The ends of consecutive blocks, the first of them at a given height. -/
def endBlocks : (height : ℕ) → KVStore → List Header → Checked KVStore
  | _, store, [] => .ok store
  | height, store, header :: headers => do
      let store ← endBlock K (Int64.ofNat height) header store
      endBlocks (height + 1) store headers

/-- What SHA3-256 is applied to at the end of a block. -/
def hashed (height : ℕ) (store : KVStore) (header : Header) : List UInt8 :=
  canonicalise (blockInput (Int64.ofNat height) (latest store) header) ++ latest store

/-- The same for consecutive blocks. -/
def hashedInputs : (height : ℕ) → KVStore → List Header → List (List UInt8)
  | _, _, [] => []
  | height, store, header :: headers =>
      hashed height store header ::
        match endBlock K (Int64.ofNat height) header store with
        | .ok store => hashedInputs (height + 1) store headers
        | .error _ => []

end EndBlock

section Commitment
variable {K : Keccak} {store store' : KVStore}

/-- The fallback is never taken and the log line never panics. -/
theorem endBlock_ok (height : Int64) (header : Header) (store : KVStore) :
    endBlock K height header store = .ok (store.set latestPQCHashKey
      (lwrHash K (canonicalise (blockInput height (latest store) header)) (latest store))) := by
  show (slice (lwrHash K (canonicalise (blockInput height (latest store) header)) (latest store)) 0
    16 >>= fun _ => pure _) = _
  rw [slice_zero (by simp), checked_ok_bind]
  rfl

theorem latest_endBlock {height : Int64} {header : Header} {t : KVStore}
    (h : endBlock K height header store = .ok t) : latest t =
      lwrHash K (canonicalise (blockInput height (latest store) header)) (latest store) := by
  rw [endBlock_ok] at h
  obtain rfl := Except.ok.inj h
  rw [latest, Store.get_set_self, Option.getD_some]

/-- Both hashes have the size of a SHA-256 digest. -/
structure Header.Sized (header : Header) : Prop where
  appHash : header.appHash.length = 32
  dataHash : header.dataHash.length = 32

/-- Equal inputs have equal predecessors and equal headers. -/
theorem hashed_inj {height : ℕ} {header header' : Header} (h : header.Sized) (h' : header'.Sized)
    (heq : hashed height store header = hashed height store' header') :
    latest store = latest store' ∧ header = header' := by
  have hlen : ∀ (prev : List UInt8) {header : Header}, header.Sized →
      (canonicalise (blockInput (Int64.ofNat height) prev header)).length = 144 := by
    intro prev header h
    simp [canonicalise, blockInput, h.appHash, h.dataHash]
  obtain ⟨hdata, hprev⟩ := List.append_inj heq ((hlen _ h).trans (hlen _ h').symm)
  refine ⟨hprev, ?_⟩
  rw [← hprev] at hdata
  simp only [canonicalise, blockInput, List.flatten_singleton, List.append_assoc,
    List.append_cancel_left_eq, List.nil_append] at hdata
  obtain ⟨happ, hdataHash⟩ := List.append_inj hdata (h.appHash.trans h'.appHash.symm)
  exact Header.ext happ hdataHash

/-- At one height the two runs hashed distinct strings to one digest. -/
def Collision (K : Keccak) (height : ℕ) (store store' : KVStore) (headers headers' : List Header) :
    Prop :=
  ∃ (i : ℕ) (x y : List UInt8), (hashedInputs K height store headers)[i]? = some x ∧
    (hashedInputs K height store' headers')[i]? = some y ∧ x ≠ y ∧ K.sum256 x = K.sum256 y

/-- One block: equal results come from equal predecessors and headers, or collide. -/
theorem endBlock_binds {height : ℕ} {header header' : Header} (h : header.Sized)
    (h' : header'.Sized) {t t' : KVStore}
    (ht : endBlock K (Int64.ofNat height) header store = .ok t)
    (ht' : endBlock K (Int64.ofNat height) header' store' = .ok t')
    (heq : latest t = latest t') : (latest store = latest store' ∧ header = header') ∨
      (hashed height store header ≠ hashed height store' header' ∧
        K.sum256 (hashed height store header) = K.sum256 (hashed height store' header')) := by
  rw [latest_endBlock ht, latest_endBlock ht'] at heq
  have hseed := congrArg (List.take 32) heq
  rw [lwrHash_take, lwrHash_take] at hseed
  by_cases hinput : hashed height store header = hashed height store' header'
  · exact .inl (hashed_inj h h' hinput)
  · exact .inr ⟨hinput, Vector.toList_inj.mp hseed⟩

/-- Consecutive blocks, from the front: the later blocks lead back to the hashes
stored by the first ones, and these to the first headers. -/
theorem endBlocks_bind {headers headers' : List Header} {height : ℕ}
    (hlen : headers.length = headers'.length) (h : ∀ header ∈ headers, header.Sized)
    (h' : ∀ header ∈ headers', header.Sized) {t t' : KVStore}
    (ht : endBlocks K height store headers = .ok t)
    (ht' : endBlocks K height store' headers' = .ok t') (heq : latest t = latest t') :
    (latest store = latest store' ∧ headers = headers') ∨
      Collision K height store store' headers headers' := by
  induction headers generalizing headers' height store store' with
  | nil =>
      obtain rfl := List.length_eq_zero_iff.mp hlen.symm
      cases ht
      cases ht'
      exact .inl ⟨heq, rfl⟩
  | cons header headers ih =>
      cases headers' with
      | nil => cases hlen
      | cons header' headers' =>
          obtain ⟨m, hm, hrest⟩ := (checked_bind_ok _ _ _).mp ht
          obtain ⟨m', hm', hrest'⟩ := (checked_bind_ok _ _ _).mp ht'
          rw [List.forall_mem_cons] at h h'
          rcases ih (Nat.succ.inj hlen) h.2 h'.2 hrest hrest' with ⟨hlatest, rfl⟩ | hcollision
          · rcases endBlock_binds h.1 h'.1 hm hm' hlatest with ⟨hstore, rfl⟩ | ⟨hne, hsum⟩
            · exact .inl ⟨hstore, rfl⟩
            · exact .inr ⟨0, _, _, rfl, rfl, hne, hsum⟩
          · obtain ⟨i, x, y, hx, hy, hne, hsum⟩ := hcollision
            refine .inr ⟨i + 1, x, y, ?_, ?_, hne, hsum⟩
            · simpa only [hashedInputs, hm, List.getElem?_cons_succ] using hx
            · simpa only [hashedInputs, hm', List.getElem?_cons_succ] using hy

end Commitment

/-- The hash stored when the blocks from height one on have ended. -/
def storedHash (K : Keccak) (store : KVStore) (headers : List Header) : Option (List UInt8) :=
  (endBlocks K 1 store headers).toOption.bind fun t => t.get latestPQCHashKey

theorem endBlocks_ok (K : Keccak) (headers : List Header) (height : ℕ) (store : KVStore) :
    ∃ t, endBlocks K height store headers = .ok t := by
  induction headers generalizing height store with
  | nil => exact ⟨store, rfl⟩
  | cons header headers ih =>
      obtain ⟨t, ht⟩ := ih (height + 1) _
      exact ⟨t, (checked_bind_ok _ _ _).mpr ⟨_, endBlock_ok .., ht⟩⟩

/-- Runs of the same length that end with the same hash saw the same headers, or
hashed distinct strings to one digest at some height. -/
theorem hash_chain_commits (K : Keccak) (store store' : KVStore) (headers headers' : List Header)
    (hlen : headers.length = headers'.length) (hsized : ∀ header ∈ headers, header.Sized)
    (hsized' : ∀ header ∈ headers', header.Sized)
    (heq : storedHash K store headers = storedHash K store' headers') :
    headers = headers' ∨ Collision K 1 store store' headers headers' := by
  obtain ⟨t, ht⟩ := endBlocks_ok K headers 1 store
  obtain ⟨t', ht'⟩ := endBlocks_ok K headers' 1 store'
  have hlatest : latest t = latest t' := by
    simp only [storedHash, ht, ht', Except.toOption, Option.bind_some] at heq
    rw [latest, latest, heq]
  exact (endBlocks_bind hlen hsized hsized' ht ht' hlatest).imp_left And.right

def twoHeaders : List Header :=
  [⟨List.replicate 32 1, List.replicate 32 2⟩, ⟨List.replicate 32 3, List.replicate 32 4⟩]

theorem twoHeaders_sized : ∀ header ∈ twoHeaders, header.Sized := by
  simp only [twoHeaders, List.forall_mem_cons]
  exact ⟨⟨rfl, rfl⟩, ⟨rfl, rfl⟩, by simp⟩

theorem hash_chain_commits_twoHeaders : (∀ header ∈ twoHeaders, header.Sized) ∧
    (twoHeaders = twoHeaders ∨ Collision zeroKeccak 1 ∅ ∅ twoHeaders twoHeaders) :=
  ⟨twoHeaders_sized,
    hash_chain_commits zeroKeccak ∅ ∅ _ _ rfl twoHeaders_sized twoHeaders_sized rfl⟩

end Zytherion.HashChain
