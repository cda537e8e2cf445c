import Zytherion.TxDelivery

/-!
# The adaptive commit timeout

A manager in memory counts the transactions that pass the ante chain. At the end
of a block the count goes into a ring of ten, and the timeout that follows from
the ring's average is written to the store and put into an event.

The count is taken wherever the ante chain runs, in `CheckTx` as in `DeliverTx`,
and neither it nor the ring survives a restart. Two nodes that deliver the same
blocks agree as long as both started at the same points and as many transactions
passed `CheckTx` on the one as on the other.
-/
namespace Zytherion.AdaptiveCommit

open GoCall KeyedStore ByteStrings Proposals TxDelivery

/-! In nanoseconds. -/

def defaultCommitTimeout : ℕ := 1000000000
def idleCommitTimeout : ℕ := 5000000000

def lowTxThreshold : ℚ := 5
def rollingWindow : ℕ := 10
def adaptiveTimeoutKey : List UInt8 := utf8 "greenbft/timeout_ns"

structure AdaptiveTimeoutManager where
  txTotal : ℕ
  txCounts : Vector ℕ rollingWindow
  head : Fin rollingWindow
  filled : Bool

namespace AdaptiveTimeoutManager

def new : AdaptiveTimeoutManager := ⟨0, Vector.replicate rollingWindow 0, ⟨0, by decide⟩, false⟩

variable (m : AdaptiveTimeoutManager)

def addTx : AdaptiveTimeoutManager := { m with txTotal := m.txTotal + 1 }

def drainTxCount : ℕ × AdaptiveTimeoutManager := (m.txTotal, { m with txTotal := 0 })

def rollingAvg : ℚ :=
  let size := if m.filled then rollingWindow else m.head.val
  if size = 0 then 0 else (m.txCounts.toList.take size).sum / size

def suggestedCommitTimeout : ℕ :=
  if m.rollingAvg < lowTxThreshold then idleCommitTimeout else defaultCommitTimeout

def getRecommendedTimeout : ℕ := m.suggestedCommitTimeout

/-- The next cell of the ring. -/
def pushCount (txCount : ℕ) : AdaptiveTimeoutManager :=
  let head : Fin rollingWindow := ⟨(m.head.val + 1) % rollingWindow, Nat.mod_lt _ (by decide)⟩
  { m with
    txCounts := m.txCounts.set m.head txCount
    head := head
    filled := m.filled || head.val == 0 }

def recordBlockLoad (store : KVStore) (txCount : ℕ) : KVStore × AdaptiveTimeoutManager :=
  let m := m.pushCount txCount
  (store.set adaptiveTimeoutKey (bigEndian 8 m.suggestedCommitTimeout), m)

end AdaptiveTimeoutManager

structure GreenBFTEvent where
  recommendedTimeoutMs : String
  blockTxCount : String
  mode : String
  deriving DecidableEq, Repr

def greenBFTMode (d : ℕ) : String := if idleCommitTimeout ≤ d then "idle" else "busy"

/-- The store of the privacy module, which the timeout is written to, and the others. -/
structure Stores (σ : Type) where
  others : σ
  privacy : KVStore

structure Block (H : Type) where
  header : H
  txs : List (List UInt8)

/-- The application with the block handlers of its modules. A panic in one of them
stops the node. -/
structure ChainApp (σ Tx ε H : Type) extends BaseApp (Stores σ) Tx ε where
  beginBlock : H → Stores σ → Checked (Stores σ)
  endBlock : H → Stores σ → Checked (Stores σ)

/-- A node between two blocks: what is on disk, the state of the mempool's checks
and the manager in memory. -/
structure Node (σ : Type) where
  committed : Stores σ
  checkState : Stores σ
  manager : AdaptiveTimeoutManager

/-- What happens at one node only. -/
inductive LocalEvent where
  | checkTx (type : CheckTxType) (tx : List UInt8)
  | restart

section Node
variable {σ Tx ε H : Type} (C : ChainApp σ Tx ε H)

def startNode (s : Stores σ) : Node σ := ⟨s, s, .new⟩

/-- `BaseAnteDecorator` counts what it passes. -/
def countPassed {S : Type} (m : AdaptiveTimeoutManager) (a : Answer S) : AdaptiveTimeoutManager :=
  if a.antePassed then m.addTx else m

def localStep (n : Node σ) : LocalEvent → Node σ
  | .checkTx type tx =>
      let a := checkTx C.toBaseApp type tx n.checkState
      { n with checkState := a.state, manager := countPassed n.manager a }
  | .restart => startNode n.committed

/-- What a block leaves behind for the outside: the stored timeout and the event. -/
structure BlockOutput where
  stored : Option (List UInt8)
  event : GreenBFTEvent
  deriving DecidableEq, Repr

def endBlocker (header : H) (m : AdaptiveTimeoutManager) (s : Stores σ) :
    Checked (Stores σ × AdaptiveTimeoutManager × GreenBFTEvent) := do
  let (txCount, m) := m.drainTxCount
  let (privacy, m) := m.recordBlockLoad s.privacy txCount
  let recommended := m.getRecommendedTimeout
  let s ← C.endBlock header { s with privacy := privacy }
  return (s, m, ⟨toString (recommended / 1000000), toString txCount, greenBFTMode recommended⟩)

/-- A block from its beginning to its commit, which resets the state of the checks. -/
def deliverBlock (n : Node σ) (b : Block H) : Checked (Node σ × BlockOutput) := do
  let s ← C.beginBlock b.header n.committed
  let answers := deliverTxs C.toBaseApp s b.txs
  let m := answers.foldl countPassed n.manager
  let (s, m, event) ← endBlocker C b.header m (stateAfter s answers)
  return (⟨s, s, m⟩, ⟨s.privacy.get adaptiveTimeoutKey, event⟩)

/-- The outputs of the blocks a node delivers, with what happens at the node
before each of them. -/
def outputs : Node σ → List (List LocalEvent × Block H) → List BlockOutput
  | _, [] => []
  | n, (locals, b) :: rest =>
      match deliverBlock C (locals.foldl (localStep C) n) b with
      | .ok (n', out) => out :: outputs n' rest
      | .error _ => []

end Node

/-- Whether a node restarted, and what passed `CheckTx` at it since then. -/
structure Tally where
  restarted : Bool
  passed : ℕ
  deriving DecidableEq, Repr

section Agreement
variable {σ Tx ε H : Type} (C : ChainApp σ Tx ε H)

def tally (committed : Stores σ) : Stores σ → List LocalEvent → Tally
  | _, [] => ⟨false, 0⟩
  | s, .checkTx type tx :: locals =>
      let a := checkTx C.toBaseApp type tx s
      let r := tally committed a.state locals
      if r.restarted || !a.antePassed then r else ⟨false, r.passed + 1⟩
  | _, .restart :: locals => ⟨true, (tally committed committed locals).passed⟩

/-- The manager a node of some tally meets the next block with. -/
def managerAfter (r : Tally) (m : AdaptiveTimeoutManager) : AdaptiveTimeoutManager :=
  if r.restarted then { AdaptiveTimeoutManager.new with txTotal := r.passed }
  else { m with txTotal := m.txTotal + r.passed }

/-- A restart forgets what came before it. -/
theorem managerAfter_new (r : Tally) (m : AdaptiveTimeoutManager) :
    managerAfter r .new = managerAfter ⟨true, r.passed⟩ m := by
  cases r with
  | mk restarted passed => cases restarted <;> simp [managerAfter, AdaptiveTimeoutManager.new]

theorem managerAfter_count {S : Type} (r : Tally) (m : AdaptiveTimeoutManager) (a : Answer S) :
    managerAfter r (countPassed m a) =
      managerAfter (if r.restarted || !a.antePassed then r else ⟨false, r.passed + 1⟩) m := by
  cases hrestarted : r.restarted <;> cases hpassed : a.antePassed <;>
    simp [managerAfter, countPassed, AdaptiveTimeoutManager.addTx, hrestarted, hpassed]
  omega

theorem locals_spec (locals : List LocalEvent) (n : Node σ) :
    (locals.foldl (localStep C) n).committed = n.committed ∧
      (locals.foldl (localStep C) n).manager =
        managerAfter (tally C n.committed n.checkState locals) n.manager := by
  induction locals generalizing n with
  | nil => exact ⟨rfl, rfl⟩
  | cons event locals ih =>
      obtain ⟨hcommitted, hmanager⟩ := ih (localStep C n event)
      rw [List.foldl_cons, hcommitted, hmanager]
      cases event with
      | restart => exact ⟨rfl, managerAfter_new _ _⟩
      | checkTx type tx => exact ⟨rfl, managerAfter_count _ _ _⟩

theorem deliverBlock_congr {n₁ n₂ : Node σ} (hcommitted : n₁.committed = n₂.committed)
    (hmanager : n₁.manager = n₂.manager) (b : Block H) :
    deliverBlock C n₁ b = deliverBlock C n₂ b := by
  simp only [deliverBlock, hcommitted, hmanager]

/-- Before every block both nodes have the same tally. -/
def SameTallies : Node σ → List (List LocalEvent × List LocalEvent × Block H) → Prop
  | _, [] => True
  | n, (left, right, b) :: rest =>
      tally C n.committed n.checkState left = tally C n.committed n.checkState right ∧
        ∀ n' out, deliverBlock C (left.foldl (localStep C) n) b = .ok (n', out) →
          SameTallies n' rest

theorem outputs_agree {n : Node σ} {run : List (List LocalEvent × List LocalEvent × Block H)}
    (h : SameTallies C n run) :
    outputs C n (run.map fun e => (e.1, e.2.2)) =
      outputs C n (run.map fun e => (e.2.1, e.2.2)) := by
  induction run generalizing n with
  | nil => rfl
  | cons entry rest ih =>
      obtain ⟨left, right, b⟩ := entry
      obtain ⟨htally, hrest⟩ := h
      have hleft := locals_spec C left n
      have hright := locals_spec C right n
      have hsame := deliverBlock_congr C (hleft.1.trans hright.1.symm)
        (hleft.2.trans (by rw [htally, hright.2])) b
      simp only [List.map_cons, outputs, ← hsame]
      split
      · rw [ih (hrest _ _ ‹_›)]
      · rfl

/-- Nodes that start on the same stores, deliver the same blocks and have the same
tally before each of them store the same timeouts and emit the same events. -/
theorem adaptive_commit_agrees (s : Stores σ)
    (run : List (List LocalEvent × List LocalEvent × Block H))
    (h : SameTallies C (startNode s) run) :
    outputs C (startNode s) (run.map fun e => (e.1, e.2.2)) =
      outputs C (startNode s) (run.map fun e => (e.2.1, e.2.2)) := outputs_agree C h

end Agreement

/-! An application whose ante chain passes everything and whose modules do nothing. -/

def passing : ChainApp Unit Unit Unit Unit where
  abciInfo _ := (1, "")
  abciInfo_code _ := by decide
  recovered _ := ()
  blockGasMeter _ := .ok ()
  txDecoder _ := .ok ()
  validateBasicTxMsgs _ := .ok ()
  anteHandler _ _ := fun s => .ok () s
  runMsgs _ := fun s => .ok "[]" s
  beginBlock _ s := .ok s
  endBlock _ s := .ok s

def emptyStores : Stores Unit := ⟨(), ∅⟩

/-- Five transactions pass `CheckTx` at one of two nodes, and an empty block follows. -/
def gossiped : List (List LocalEvent × List LocalEvent × Block Unit) :=
  [(List.replicate 5 (.checkTx .new []), [], ⟨(), []⟩)]

/-- One of two nodes restarts between a block of ten transactions and an empty one. -/
def restartedOnce : List (List LocalEvent × List LocalEvent × Block Unit) :=
  [([], [], ⟨(), List.replicate 10 []⟩), ([.restart], [], ⟨(), []⟩)]

def busyOutput (txCount : ℕ) : BlockOutput :=
  ⟨some (bigEndian 8 defaultCommitTimeout), ⟨"1000", toString txCount, "busy"⟩⟩

def idleOutput (txCount : ℕ) : BlockOutput :=
  ⟨some (bigEndian 8 idleCommitTimeout), ⟨"5000", toString txCount, "idle"⟩⟩

/-- Both make the two nodes store different timeouts for the same blocks. -/
theorem nodes_disagree :
    (outputs passing (startNode emptyStores) (gossiped.map fun e => (e.1, e.2.2)) = [busyOutput 5] ∧
      outputs passing (startNode emptyStores) (gossiped.map fun e => (e.2.1, e.2.2)) =
        [idleOutput 0]) ∧
    outputs passing (startNode emptyStores) (restartedOnce.map fun e => (e.1, e.2.2)) =
        [busyOutput 10, idleOutput 0] ∧
      outputs passing (startNode emptyStores) (restartedOnce.map fun e => (e.2.1, e.2.2)) =
        [busyOutput 10, busyOutput 0] := by
  decide +kernel

/-- As many transactions pass at the one node as at the other, though not the same ones. -/
def balanced : List (List LocalEvent × List LocalEvent × Block Unit) :=
  [([.checkTx .new [1]], [.checkTx .recheck [2]], ⟨(), [[3]]⟩), ([.restart], [.restart], ⟨(), []⟩)]

theorem balanced_tallies : SameTallies passing (startNode emptyStores) balanced :=
  ⟨rfl, fun _ _ _ => ⟨rfl, fun _ _ _ => trivial⟩⟩

theorem balanced_agrees : SameTallies passing (startNode emptyStores) balanced ∧
    outputs passing (startNode emptyStores) (balanced.map fun e => (e.1, e.2.2)) =
      outputs passing (startNode emptyStores) (balanced.map fun e => (e.2.1, e.2.2)) :=
  ⟨balanced_tallies, adaptive_commit_agrees passing emptyStores balanced balanced_tallies⟩

end Zytherion.AdaptiveCommit
