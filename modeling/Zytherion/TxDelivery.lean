import Zytherion.Proposals

/-!
# Delivering the transactions of a block

`BaseApp` decodes a transaction, validates its messages, runs the ante chain and
then the handlers of the messages; a failure on the way, a recovered panic
included, is answered with the code of the error. The application looks at the
first bytes before that: what begins with the sentinel's marker is answered in
`DeliverTx` as a sentinel, at whatever place in the block it stands, and refused
in `CheckTx`.

The decoder, the ante chain and the handlers are parameters, and so are the
stores they work on.
-/
namespace Zytherion.TxDelivery

open GoCall LwrHash ByteStrings Sentinel Proposals

inductive RunTxMode where
  | check
  | reCheck
  | deliver
  deriving DecidableEq, Repr

/-- What `BaseApp` is configured with: `S` are the stores, `Tx` a decoded
transaction, `ε` the errors. No error is registered under the code of success. -/
structure BaseApp (S Tx ε : Type) where
  abciInfo : ε → ℕ × String
  abciInfo_code : ∀ e, (abciInfo e).1 ≠ 0
  recovered : String → ε
  blockGasMeter : S → Except ε Unit
  txDecoder : List UInt8 → Except ε Tx
  validateBasicTxMsgs : Tx → Except ε Unit
  anteHandler : RunTxMode → Tx → Call S ε Unit
  runMsgs : Tx → Call S ε String

/-- The log of a transaction that succeeded or its error, the stores, and how far
it got: whether the ante chain passed it and whether its messages were handled. -/
structure Ran (S ε : Type) where
  result : Except ε String
  state : S
  antePassed : Bool
  handled : Bool

section RunTx
variable {S Tx ε : Type} (B : BaseApp S Tx ε)

/-- The messages run in a branch of the stores, and only in `DeliverTx`. -/
def runHandlers (mode : RunTxMode) (tx : Tx) (s : S) : Ran S ε :=
  if mode = .deliver then
    match B.runMsgs tx s with
    | .ok log t => ⟨.ok log, t, true, true⟩
    | .err e _ => ⟨.error e, s, true, false⟩
    | .panic r => ⟨.error (B.recovered r), s, true, false⟩
  else ⟨.ok "[]", s, true, false⟩

/-- So does the ante chain; what it wrote stays when a message fails. -/
def runAnte (mode : RunTxMode) (tx : Tx) (s : S) : Ran S ε :=
  match B.anteHandler mode tx s with
  | .ok _ t => runHandlers B mode tx t
  | .err e _ => ⟨.error e, s, false, false⟩
  | .panic r => ⟨.error (B.recovered r), s, false, false⟩

def decodeAndValidate (mode : RunTxMode) (txBytes : List UInt8) (s : S) : Except ε Tx := do
  if mode = .deliver then B.blockGasMeter s
  let tx ← B.txDecoder txBytes
  B.validateBasicTxMsgs tx
  return tx

def runTx (mode : RunTxMode) (txBytes : List UInt8) (s : S) : Ran S ε :=
  match decodeAndValidate B mode txBytes s with
  | .ok tx => runAnte B mode tx s
  | .error e => ⟨.error e, s, false, false⟩

theorem runHandlers_ok {tx : Tx} {s : S} {log : String}
    (h : (runHandlers B .deliver tx s).result = .ok log) :
    (runHandlers B .deliver tx s).antePassed = true ∧
      (runHandlers B .deliver tx s).handled = true := by
  rw [runHandlers, if_pos rfl] at h ⊢
  cases hmsgs : B.runMsgs tx s with
  | ok _ t => exact ⟨rfl, rfl⟩
  | err e t =>
      rw [hmsgs] at h
      cases h
  | panic r =>
      rw [hmsgs] at h
      cases h

theorem runAnte_ok {tx : Tx} {s : S} {log : String}
    (h : (runAnte B .deliver tx s).result = .ok log) :
    (runAnte B .deliver tx s).antePassed = true ∧ (runAnte B .deliver tx s).handled = true := by
  rw [runAnte] at h ⊢
  cases hante : B.anteHandler .deliver tx s with
  | ok _ t =>
      rw [hante] at h
      exact runHandlers_ok B h
  | err e t =>
      rw [hante] at h
      cases h
  | panic r =>
      rw [hante] at h
      cases h

/-- Whoever succeeds in `DeliverTx` went all the way. -/
theorem runTx_ok {txBytes : List UInt8} {s : S} {log : String}
    (h : (runTx B .deliver txBytes s).result = .ok log) :
    (runTx B .deliver txBytes s).antePassed = true ∧
      (runTx B .deliver txBytes s).handled = true := by
  rw [runTx] at h ⊢
  cases hdecode : decodeAndValidate B .deliver txBytes s with
  | ok tx =>
      rw [hdecode] at h
      exact runAnte_ok B h
  | error e =>
      rw [hdecode] at h
      cases h

end RunTx

inductive CheckTxType where
  | new
  | recheck
  deriving DecidableEq, Repr

def CheckTxType.mode : CheckTxType → RunTxMode
  | new => .check
  | recheck => .reCheck

structure Response where
  code : ℕ
  log : String

/-- A response, and what it took to get there. -/
structure Answer (S : Type) where
  response : Response
  state : S
  antePassed : Bool
  handled : Bool

/-- The test both `DeliverTx` and `CheckTx` begin with. -/
def Marked (tx : List UInt8) : Prop := 8 ≤ tx.length ∧ HasMarker tx

instance (b : List UInt8) : Decidable (HasMarker b) := inferInstanceAs (Decidable (_ = _))

instance (tx : List UInt8) : Decidable (Marked tx) := inferInstanceAs (Decidable (_ ∧ _))

section App
variable {S Tx ε : Type} (B : BaseApp S Tx ε)

def responseOf : Except ε String → Response
  | .ok log => ⟨0, log⟩
  | .error e => ⟨(B.abciInfo e).1, (B.abciInfo e).2⟩

def answerOf (r : Ran S ε) : Answer S :=
  ⟨responseOf B r.result, r.state, r.antePassed, r.handled⟩

def deliverTx (tx : List UInt8) (s : S) : Answer S :=
  if Marked tx then ⟨⟨0, "PoVL Sentinel processed deterministically"⟩, s, false, false⟩
  else answerOf B (runTx B .deliver tx s)

def checkTx (type : CheckTxType) (tx : List UInt8) (s : S) : Answer S :=
  if Marked tx then ⟨⟨1, "PoVL Sentinel cannot be submitted via mempool"⟩, s, false, false⟩
  else answerOf B (runTx B type.mode tx s)

/-- The transactions of a block, one after the other. -/
def deliverTxs : S → List (List UInt8) → List (Answer S)
  | _, [] => []
  | s, tx :: txs =>
      let a := deliverTx B tx s
      a :: deliverTxs a.state txs

/-- The stores behind the last of them. -/
def stateAfter (s : S) (answers : List (Answer S)) : S := (answers.getLast?.map Answer.state).getD s

/-- Answered as a success without the ante chain and the handlers. -/
def Bypassed (a : Answer S) : Prop :=
  a.response.code = 0 ∧ ¬ (a.antePassed = true ∧ a.handled = true)

def BypassedAt (s : S) (txs : List (List UInt8)) (i : ℕ) : Prop :=
  ∃ a, (deliverTxs B s txs)[i]? = some a ∧ Bypassed a

theorem deliverTx_bypassed (tx : List UInt8) (s : S) :
    Bypassed (deliverTx B tx s) ↔ Marked tx := by
  unfold deliverTx
  split_ifs with hmarked
  · exact iff_of_true ⟨rfl, fun h => Bool.false_ne_true h.1⟩ hmarked
  · refine iff_of_false ?_ hmarked
    rintro ⟨hcode, hskipped⟩
    cases hresult : (runTx B .deliver tx s).result with
    | ok log => exact hskipped (runTx_ok B hresult)
    | error e =>
        simp only [answerOf, hresult, responseOf] at hcode
        exact B.abciInfo_code e hcode

theorem bypassedAt_iff (txs : List (List UInt8)) (s : S) (i : ℕ) :
    BypassedAt B s txs i ↔ ∃ tx, txs[i]? = some tx ∧ Marked tx := by
  induction txs generalizing s i with
  | nil => simp [BypassedAt, deliverTxs]
  | cons tx txs ih =>
      cases i with
      | zero => simp [BypassedAt, deliverTxs, deliverTx_bypassed]
      | succ i => exact ih (deliverTx B tx s).state i

theorem accepted_marked {K : Keccak} {store : KVStore} {sentinel : List UInt8}
    {rest : List (List UInt8)} (h : Accepts K store (sentinel :: rest)) : Marked sentinel := by
  obtain ⟨version, steps, trailing, hversion, hsteps, rfl⟩ := accepts_iff.mp h
  refine ⟨?_, ?_⟩
  · rw [layout_claimOf_length K store rest hversion hsteps]
    omega
  · rw [HasMarker, layout_take]
    exact bigEndianValue_bigEndian (by decide)

/-- In an accepted block exactly the first transaction is let through unexecuted,
if and only if no later one begins with the marker. -/
theorem only_sentinel_bypasses_iff (K : Keccak) (store : KVStore) (B : BaseApp S Tx ε) (s : S)
    (sentinel : List UInt8) (rest : List (List UInt8))
    (haccept : Accepts K store (sentinel :: rest)) :
    (∀ i, BypassedAt B s (sentinel :: rest) i ↔ i = 0) ↔ ∀ tx ∈ rest, ¬ Marked tx := by
  simp only [bypassedAt_iff]
  constructor
  · intro honly tx htx hmarked
    obtain ⟨i, hi⟩ := List.mem_iff_getElem?.mp htx
    have hzero := (honly (i + 1)).mp ⟨tx, hi, hmarked⟩
    omega
  · intro hrest i
    cases i with
    | zero => exact iff_of_true ⟨sentinel, rfl, accepted_marked haccept⟩ rfl
    | succ i =>
        refine iff_of_false ?_ (by omega)
        rintro ⟨tx, htx, hmarked⟩
        exact hrest tx (List.mem_of_getElem? htx) hmarked

end App

/-! An application that refuses every transaction. -/

def refusing : BaseApp Unit Unit Unit where
  abciInfo _ := (2, "tx parse error")
  abciInfo_code _ := by decide
  recovered _ := ()
  blockGasMeter _ := .ok ()
  txDecoder _ := .error ()
  validateBasicTxMsgs _ := .ok ()
  anteHandler _ _ := fun s => .err () s
  runMsgs _ := fun s => .err () s

/-- The marker and a word of anything. -/
def markedTx : List UInt8 := bigEndian 4 lwrMarkerUint32 ++ [1, 2, 3, 4]

/-- The block of a proposer that was handed one transaction. -/
def blockOf (tx : List UInt8) : List (List UInt8) := [sentinelFor zeroKeccak ∅ [tx], tx]

/-- It is accepted in second place and answered with code 0, though the
application refuses every transaction. -/
theorem markedTx_bypasses : Accepts zeroKeccak ∅ (blockOf markedTx) ∧
    BypassedAt refusing () (blockOf markedTx) 1 :=
  ⟨sentinelFor_accepted zeroKeccak ∅ [markedTx],
    (bypassedAt_iff refusing _ () 1).mpr ⟨markedTx, rfl, by decide +kernel⟩⟩

theorem only_sentinel_bypasses_plain : Accepts zeroKeccak ∅ (blockOf [1, 2, 3]) ∧
    ∀ i, BypassedAt refusing () (blockOf [1, 2, 3]) i ↔ i = 0 :=
  ⟨sentinelFor_accepted zeroKeccak ∅ [[1, 2, 3]],
    (only_sentinel_bypasses_iff zeroKeccak ∅ refusing () _ _
      (sentinelFor_accepted zeroKeccak ∅ [[1, 2, 3]])).mpr (by decide +kernel)⟩

end Zytherion.TxDelivery
