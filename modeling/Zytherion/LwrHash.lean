import Zytherion.ByteStrings
import Zytherion.Application

/-!
# The lattice hash and the sequential clock

A block hash is the digest of its input and the previous hash, followed by 64
rounded coefficients of a product in `Z_q[X]/(X^256 + 1)`: one factor is drawn
from the digest by rejection, the other is read off the input's bits. The clock
repeats a step that hashes the lattice hash of its state.

SHA3-256 and SHAKE-256 are linked. `Keccak` holds them as arbitrary functions;
the number of samples the rejection loop reads comes with them, since for an
arbitrary stream nothing bounds it.
-/
namespace Zytherion.LwrHash

open GoCall Application ByteStrings

def lwrN : ℕ := 256
def lwrQ : ℕ := 3329
def lwrP : ℕ := 256
def lwrOutputCoeffs : ℕ := 64
def lwrHashSize : ℕ := 96

/-- The sample at a position of a stream: two bytes, the lower one first. -/
def sample (stream : ℕ → UInt8) (j : ℕ) : ℕ :=
  (stream (2 * j)).toNat + 256 * (stream (2 * j + 1)).toNat

/-- The hash functions, the second as an unbounded stream, and how many samples
of a stream hold as many below `lwrQ` as the matrix has coefficients. -/
structure Keccak where
  sum256 : List UInt8 → Vector UInt8 32
  shake256 : List UInt8 → ℕ → UInt8
  samples : List UInt8 → ℕ
  samples_enough : ∀ m,
    lwrN ≤ (List.range (samples m)).countP fun j => decide (sample (shake256 m) j < lwrQ)

abbrev Ring : Type := Vector Int32 lwrN

/-- The loop of `expandMatrix`: a sample below `lwrQ` is the next coefficient,
any other is skipped. -/
def drawCoeffs (stream : ℕ → UInt8) : (fuel j i : ℕ) → Ring → Ring
  | 0, _, _, a => a
  | fuel + 1, j, i, a =>
      if h : i < lwrN then
        if sample stream j < lwrQ then
          drawCoeffs stream fuel (j + 1) (i + 1) (a.set i (Int32.ofNat (sample stream j)) h)
        else drawCoeffs stream fuel (j + 1) i a
      else a

/-- Once enough samples are good the loop has exited: more fuel changes nothing. -/
theorem drawCoeffs_exits (stream : ℕ → UInt8) {fuel j i : ℕ} (extra : ℕ) (a : Ring)
    (h : lwrN ≤ i + (List.range' j fuel).countP fun j => decide (sample stream j < lwrQ)) :
    drawCoeffs stream (fuel + extra) j i a = drawCoeffs stream fuel j i a := by
  induction fuel generalizing j i a with
  | zero =>
      have hi : ¬ i < lwrN := by simpa using h
      cases extra with
      | zero => rfl
      | succ extra =>
          rw [Nat.zero_add]
          simp only [drawCoeffs, hi, dite_false]
  | succ fuel ih =>
      rw [List.range'_succ, List.countP_cons] at h
      rw [Nat.succ_add, drawCoeffs, drawCoeffs]
      split_ifs with hi hgood
      · simp only [hgood, decide_true, if_true] at h
        exact ih _ (by omega)
      · simp only [hgood, decide_false, Bool.false_eq_true, if_false] at h
        exact ih _ (by omega)
      · rfl

section Hash
variable (K : Keccak)

def computeSeed (input prevHash : List UInt8) : List UInt8 := (K.sum256 (input ++ prevHash)).toList

def expandMatrix (seed : List UInt8) : Ring :=
  drawCoeffs (K.shake256 (65 :: seed)) (K.samples (65 :: seed)) 0 0 (Vector.replicate lwrN 0)

/-- The matrix is what the loop exits with. -/
theorem expandMatrix_exits (seed : List UInt8) (extra : ℕ) :
    drawCoeffs (K.shake256 (65 :: seed)) (K.samples (65 :: seed) + extra) 0 0
      (Vector.replicate lwrN 0) = expandMatrix K seed := by
  apply drawCoeffs_exits
  rw [Nat.zero_add, ← List.range_eq_range']
  exact K.samples_enough _

/-- Two bits of the input make one coefficient of `-1`, `0` or `1`. -/
def secretCoeff (input : List UInt8) (i : ℕ) : Int32 :=
  let bitIdx := 2 * i
  let byteIdx := bitIdx / 8 % input.length
  let shift := bitIdx % 8
  let b0 := input.getD byteIdx 0 >>> UInt8.ofNat shift &&& 1
  let b1 := input.getD ((byteIdx + 1) % input.length) 0 >>> UInt8.ofNat ((shift + 1) % 8) &&& 1
  match b0.toNat + 2 * b1.toNat with
  | 0 => -1
  | 3 => 1
  | _ => 0

def inputToSecret (input : List UInt8) : Ring :=
  if input.length = 0 then Vector.replicate lwrN 0
  else Vector.ofFn fun i => secretCoeff input i

/-- One product of two coefficients; beyond the top degree it comes back with the
opposite sign. -/
def addProduct (a s : Ring) (i j : Fin lwrN) (b : Ring) : Ring :=
  let k := (i.val + j.val) % lwrN
  have hk : k < lwrN := Nat.mod_lt _ (by decide)
  let prod := a[i] * s[j]
  if lwrN ≤ i.val + j.val then b.set k (b[k] - prod) hk else b.set k (b[k] + prod) hk

def roundCoeff (x : Int32) : Int32 :=
  let val := (x % 3329 + 3329) % 3329
  val * 256 / 3329 % 256

def polyMulRound (a s : Ring) : Ring :=
  ((List.finRange lwrN).foldl (fun b i =>
    (List.finRange lwrN).foldl (fun b j => addProduct a s i j b) b)
    (Vector.replicate lwrN 0)).map roundCoeff

/-- `byte(b[i])` for the first coefficients. -/
def outputBytes (b : Ring) : List UInt8 :=
  (b.toList.take lwrOutputCoeffs).map fun x => x.toUInt32.toUInt8

/-- The 96 bytes `generateLWRBlockHash` writes. -/
def lwrHash (input prevHash : List UInt8) : List UInt8 :=
  let seed := computeSeed K input prevHash
  let a := expandMatrix K seed
  let s := inputToSecret input
  seed ++ outputBytes (polyMulRound a s)

/-- The error it may return by its type is nil on every path. -/
def generateLWRBlockHash (input prevHash : List UInt8) : Except Err (List UInt8) :=
  .ok (lwrHash K input prevHash)

def validateLWRHash (h : List UInt8) : Except Err Unit :=
  if h.length ≠ lwrHashSize then
    .error (.plain ("invalid LWR hash: expected " ++ toString lwrHashSize ++ " bytes, got " ++
      toString h.length))
  else
    match (List.range lwrOutputCoeffs).find? fun i => decide (lwrP ≤ (h.getD (32 + i) 0).toNat) with
    | some i => .error (.plain ("invalid LWR hash: coefficient " ++ toString i ++
        " out of range [0," ++ toString lwrP ++ ")"))
    | none => .ok ()

@[simp] theorem computeSeed_length (input prevHash : List UInt8) :
    (computeSeed K input prevHash).length = 32 := by
  simp [computeSeed]

@[simp] theorem lwrHash_length (input prevHash : List UInt8) :
    (lwrHash K input prevHash).length = 96 := by
  have hring : ∀ b : Ring, b.toList.length = 256 := fun b => b.length_toList
  simp only [lwrHash, outputBytes, List.length_append, computeSeed_length, List.length_map,
    List.length_take, hring, lwrOutputCoeffs]
  decide

theorem lwrHash_take (input prevHash : List UInt8) :
    (lwrHash K input prevHash).take 32 = computeSeed K input prevHash := by
  rw [lwrHash, List.take_append_of_le_length (by simp), List.take_of_length_le (by simp)]

/-- A hash of the right length passes: a byte is below `lwrP`. -/
theorem validateLWRHash_ok {h : List UInt8} (hlen : h.length = 96) :
    validateLWRHash h = .ok () := by
  have hnone : ((List.range lwrOutputCoeffs).find? fun i =>
      decide (lwrP ≤ (h.getD (32 + i) 0).toNat)) = none := by
    rw [List.find?_eq_none]
    intro i _ hbad
    have hlt : (h.getD (32 + i) 0).toNat < 256 := UInt8.toNat_lt _
    have hle := of_decide_eq_true hbad
    simp only [lwrP] at hle
    omega
  rw [validateLWRHash, if_neg (by simp [hlen, lwrHashSize]), hnone]

end Hash

section Clock
variable (K : Keccak)

def poVLStateSize : ℕ := 32

def generatePoVLState (prevState : List UInt8) : List UInt8 :=
  let prevState := if prevState.length = 0 then List.replicate poVLStateSize 0 else prevState
  let currentState := zeroPad32 prevState
  let lwrMix := (generateLWRBlockHash K currentState currentState).toOption.getD []
  (K.sum256 (lwrMix ++ currentState)).toList

/-- The state after a number of steps, and how often the step was evaluated. -/
def computePoVLChain (initialState : List UInt8) : ℕ → List UInt8 × ℕ
  | 0 => (zeroPad32 initialState, 0)
  | n + 1 =>
      let r := computePoVLChain initialState n
      (generatePoVLState K r.1, r.2 + 1)

def verifyPoVLChain (initialState expectedFinalState : List UInt8) (nSteps : ℕ) : Bool × ℕ :=
  let r := computePoVLChain K initialState nSteps
  (r.1 == expectedFinalState, r.2)

theorem computePoVLChain_spec (initialState : List UInt8) (n : ℕ) :
    (computePoVLChain K initialState n).1.length = 32 ∧
      (computePoVLChain K initialState n).2 = n := by
  induction n with
  | zero => exact ⟨zeroPad32_length _, rfl⟩
  | succ n ih =>
      refine ⟨?_, ?_⟩
      · simp [computePoVLChain, generatePoVLState]
      · simp only [computePoVLChain, ih.2]

end Clock

/-! The hash `LWRPrepareProposal` falls back to. -/

section BlockHash
variable (K : Keccak)

structure BlockHashInput where
  height : Int64
  prevHash : List UInt8
  appHash : List UInt8
  transactions : List (List UInt8)
  poVLStateRoot : List UInt8
  poVLProof : List UInt8
  poVLStepCount : UInt64

def blockHashDomain : List UInt8 := utf8 "ZYTHERION_BLOCK_HASH_V1"

def canonicalise (input : BlockHashInput) : List UInt8 :=
  bigEndian 8 input.height.toUInt64.toNat ++ bigEndian 8 input.poVLStepCount.toNat ++
    zeroPad32 input.prevHash ++ zeroPad32 input.poVLStateRoot ++ input.appHash ++
    input.poVLProof ++ input.transactions.flatten

def generateBlockHash (input : BlockHashInput) : List UInt8 :=
  let data := canonicalise input
  let expansion := (List.range 128).map (K.shake256 (blockHashDomain ++ data))
  (K.sum256 (blockHashDomain ++ data ++ expansion)).toList

end BlockHash

end Zytherion.LwrHash
