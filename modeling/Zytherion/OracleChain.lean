import Zytherion.OracleMsgServer
import Zytherion.ZytdMessages
import Zytherion.Devnet

/-!
# Blocks with the oracle in them

A block begins with the oracle's refresh, runs its messages and ends with the
oracle's pruning. A message that fails or panics is undone; a panic of the
refresh or of the pruning stops the chain. Between its messages the bank, the
vault and the validators may change in any way.

Next to the state a node keeps the accepted submissions, oldest first. Nothing
reads them: they are what the stored entries are compared with.
-/
namespace Zytherion.OracleChain

open GoCall KeyedStore SdkMath Application ChainState Bank StablecoinKeeper StablecoinMsgServer
open VaultFrames ZytdMessages OracleKeeper OracleMsgServer

/-- An accepted submission, who sent it and the validators of that moment. -/
structure Submission where
  entry : PriceEntry
  submitter : AccAddress
  staking : ValidatorSet

structure Node where
  world : World
  log : List Submission

inductive BlockMsg where
  | submitPrice (msg : MsgSubmitPrice)
  | stablecoin (z : ZytdMsg)
  | environment (outside : State) (staking : ValidatorSet)

/-- Everything but the stores of the oracle and of the stablecoin is replaced. -/
def surrounded (w : World) (outside : State) (staking : ValidatorSet) : World :=
  { w with
    staking := staking
    chain := { outside with
      twaps := w.chain.twaps, params := w.chain.params, records := w.chain.records,
      totalSupply := w.chain.totalSupply, pqcKeys := w.chain.pqcKeys } }

section Blocks
variable {A : App} (ctx : Ctx A)

def BlockMsg.exec : BlockMsg → WorldExec Unit
  | submitPrice msg => msg.exec ctx
  | stablecoin z => onChain (z.exec ctx)
  | environment outside staking => modifyStore fun w => surrounded w outside staking

/-- The submission a message makes, if it is one and returns. -/
def noted (w : World) : BlockMsg → List Submission
  | .submitPrice msg =>
      match (msg.exec ctx w).returned, A.accAddressFromBech32 msg.submitter, msg.priceUsd with
      | some _, .ok submitter, some price => [⟨msg.entry ctx price, submitter, w.staking⟩]
      | _, _, _ => []
  | _ => []

def deliver (n : Node) (m : BlockMsg) : Node :=
  ⟨commit (m.exec ctx) n.world, n.log ++ noted ctx n.world m⟩

def onWorld (x : WorldExec Unit) : Call Node Err Unit :=
  zoom Node.world (fun n w => { n with world := w }) x

/-- A block up to some of its messages. -/
def opened (msgs : List BlockMsg) : Call Node Err Unit := do
  onWorld (beginBlock ctx)
  modifyStore fun n => run (deliver ctx) n msgs

variable (A) in
structure Block where
  ctx : Ctx A
  msgs : List BlockMsg

def block (b : Block A) : Call Node Err Unit := do
  opened b.ctx b.msgs
  onWorld (endBlock b.ctx)

variable (A) in
def genesis (bank : BankGenesis) (params : OracleParams) (staking : ValidatorSet) : Node :=
  ⟨commit (initGenesis params) ⟨Chain.genesis A bank, none, ∅, staking⟩, []⟩

def Block.height (b : Block A) : Int64 := b.ctx.height

/-- Heights as a chain has them, above zero and increasing. -/
def Increasing (heights : List Int64) : Prop := (0 :: heights).Pairwise (· < ·)

/-- Whole blocks and the beginning of a further one. -/
def upTo (before : List (Block A)) (msgs : List BlockMsg) : Call Node Err Unit := do
  List.forM before block
  opened ctx msgs

/-- After whole blocks at increasing heights, in the middle of a further one. -/
def Reached (start : Node) (n : Node) : Prop := ∃ (before : List (Block A)) (msgs : List BlockMsg),
  Increasing (before.map Block.height ++ [ctx.height]) ∧ upTo ctx before msgs start = .ok () n

end Blocks

section Steps
variable {A : App} {ctx : Ctx A} {n n' : Node} {u : Unit}

/-- What the delivery of a message does: it is an accepted submission, or the
oracle's stores stay as they are. -/
inductive Delivered (ctx : Ctx A) (n : Node) : Node → Prop
  | accepted (msg : MsgSubmitPrice) (submitter : AccAddress) (price : Dec) (w' : World)
      (h : Accepted ctx msg submitter price n.world w') :
      Delivered ctx n ⟨w', n.log ++ [⟨msg.entry ctx price, submitter, n.world.staking⟩]⟩
  | apart (w' : World) (prices : w'.prices = n.world.prices)
      (params : paramsOf w' = paramsOf n.world)
      (twaps : w'.chain.twaps = n.world.chain.twaps) : Delivered ctx n ⟨w', n.log⟩

theorem stablecoin_twaps {z : ZytdMsg} {s t : State} (h : z.exec ctx s = .ok u t) :
    t.twaps = s.twaps := by
  rcases ZytdMessages.exec_ok h with ⟨msg, r, -, hmint⟩ | ⟨msg, sender, -, -, rfl⟩
  · exact (outsideDebt_read ((mintZYTD_keeps ctx msg).ok hmint)).1
  · rfl

/-- Locking and unlocking collateral are changes of the environment. -/
theorem vault_message_environment {e : Chain.Event A} {w : World} {t : State}
    (he : (∃ msg, e = .lock ctx msg) ∨ ∃ msg, e = .unlock ctx msg)
    (h : e.exec w.chain = .ok u t) : { w with chain := t } = surrounded w t w.staking := by
  have hkeeps : outsideVault t = outsideVault w.chain := by
    rcases he with ⟨msg, rfl⟩ | ⟨msg, rfl⟩
    · exact Keeps.ok (.bind (validateFields_keeps _ _ _) fun _ =>
        .bind (msgLockCollateral_keeps ctx msg) fun _ => .pure _) h
    · exact Keeps.ok (.bind (validateFields_keeps _ _ _) fun _ =>
        .bind (msgUnlockCollateral_keeps ctx msg) fun _ => .pure _) h
  have hparams := congrArg State.params hkeeps
  have hrecords := congrArg State.records hkeeps
  have htotal := congrArg State.totalSupply hkeeps
  have htwaps := congrArg State.twaps hkeeps
  have hkeys := congrArg State.pqcKeys hkeeps
  simp only [outsideVault, outsideBank] at hparams hrecords htotal htwaps hkeys
  simp only [surrounded, ← hparams, ← hrecords, ← htotal, ← htwaps, ← hkeys]

theorem deliver_delivered (ctx : Ctx A) (n : Node) (m : BlockMsg) :
    Delivered ctx n (deliver ctx n m) := by
  cases m with
  | submitPrice msg =>
      simp only [deliver, noted, BlockMsg.exec]
      rcases commit_cases (msg.exec ctx) n.world with ⟨a, hok⟩ | ⟨hnot, hsame⟩
      · obtain ⟨submitter, price, h⟩ := OracleMsgServer.exec_ok hok
        simp only [returned_iff.mpr ⟨_, hok⟩, h.address, h.price_eq]
        exact .accepted msg submitter price _ h
      · have hnone : (msg.exec ctx n.world).returned = none := by
          cases hr : (msg.exec ctx n.world).returned with
          | none => rfl
          | some a =>
              obtain ⟨t, ht⟩ := returned_iff.mp hr
              exact (hnot a t ht).elim
        simp only [hnone, hsame, List.append_nil]
        exact .apart _ rfl rfl rfl
  | stablecoin z =>
      simp only [deliver, noted, List.append_nil, BlockMsg.exec]
      rcases commit_cases (onChain (z.exec ctx)) n.world with ⟨a, hok⟩ | ⟨-, hsame⟩
      · obtain ⟨t, hz, ht⟩ := (zoom_ok _ _ _).mp hok
        rw [← ht]
        exact .apart _ rfl rfl (stablecoin_twaps hz)
      · rw [hsame]
        exact .apart _ rfl rfl rfl
  | environment outside staking =>
      simp only [deliver, noted, List.append_nil]
      exact .apart _ rfl rfl rfl

theorem onWorld_ok {x : WorldExec Unit} :
    onWorld x n = .ok u n' ↔ ∃ w', x n.world = .ok u w' ∧ n' = ⟨w', n.log⟩ := by
  simp only [onWorld, zoom_ok, @eq_comm _ n']

theorem opened_ok {msgs : List BlockMsg} : opened ctx msgs n = .ok u n' ↔
    ∃ w', beginBlock ctx n.world = .ok () w' ∧ n' = run (deliver ctx) ⟨w', n.log⟩ msgs := by
  simp only [opened, bind_ok, onWorld_ok, modifyStore_ok]
  constructor
  · rintro ⟨_, _, ⟨w', hbegin, rfl⟩, rfl⟩
    exact ⟨w', hbegin, rfl⟩
  · rintro ⟨w', hbegin, rfl⟩
    exact ⟨(), _, ⟨w', hbegin, rfl⟩, rfl⟩

theorem block_ok {b : Block A} : block b n = .ok u n' ↔ ∃ m, opened b.ctx b.msgs n = .ok () m ∧
    n' = ⟨pruned m.world b.ctx.height, m.log⟩ := by
  simp only [block, bind_ok, onWorld_ok, endBlock, pruneOldPrices_eq, Outcome.ok.injEq, true_and]
  constructor
  · rintro ⟨_, m, hm, _, rfl, rfl⟩
    exact ⟨m, hm, rfl⟩
  · rintro ⟨m, hm, rfl⟩
    exact ⟨(), m, hm, _, rfl, rfl⟩

end Steps

section Invariants
variable {A : App} {ctx : Ctx A} {n n' start : Node} {u : Unit}

variable (A) in
/-- A property of a node and the height of its last block that every part of a
block preserves. -/
structure Invariant (I : Int64 → Node → Prop) : Prop where
  refresh : ∀ {h : Int64} {ctx : Ctx A} {n : Node} {w' : World}, h < ctx.height → I h n →
    beginBlock ctx n.world = .ok () w' → I ctx.height ⟨w', n.log⟩
  deliver : ∀ {ctx : Ctx A} {n n' : Node}, Delivered ctx n n' → I ctx.height n → I ctx.height n'
  prune : ∀ {h : Int64} {n : Node}, I h n → I h ⟨pruned n.world h, n.log⟩

namespace Invariant
variable {I : Int64 → Node → Prop}

theorem opened (hI : Invariant A I) {h : Int64} {msgs : List BlockMsg} (hlt : h < ctx.height)
    (hn : I h n) (hopened : OracleChain.opened ctx msgs n = .ok u n') : I ctx.height n' := by
  obtain ⟨w', hbegin, rfl⟩ := opened_ok.mp hopened
  exact run_invariant (I ctx.height) (fun _ => True)
    (fun n m _ hn => hI.deliver (deliver_delivered ctx n m) hn) msgs _ (hI.refresh hlt hn hbegin)
    fun _ _ => trivial

theorem block (hI : Invariant A I) {h : Int64} {b : Block A} (hlt : h < b.ctx.height)
    (hn : I h n) (hblock : OracleChain.block b n = .ok u n') : I b.ctx.height n' := by
  obtain ⟨m, hm, rfl⟩ := block_ok.mp hblock
  exact hI.prune (hI.opened hlt hn hm)

theorem blocks (hI : Invariant A I) {k : Int64} (bs : List (Block A)) {h : Int64}
    (hasc : (h :: (bs.map Block.height ++ [k])).Pairwise (· < ·)) (hn : I h n)
    (hrun : List.forM bs OracleChain.block n = .ok u n') : ∃ h' < k, I h' n' := by
  induction bs generalizing h n with
  | nil =>
      obtain ⟨-, rfl⟩ := (pure_ok _ _).mp hrun
      exact ⟨h, List.rel_of_pairwise_cons hasc (by simp), hn⟩
  | cons b bs ih =>
      obtain ⟨_, m, hblock, hrest⟩ := (bind_ok (OracleChain.block b) _).mp hrun
      obtain ⟨hlt, htail⟩ := List.pairwise_cons.mp hasc
      exact ih htail (hI.block (hlt b.height (by simp)) hn hblock) hrest

theorem reached (hI : Invariant A I) (hinit : I 0 start) (h : Reached ctx start n) :
    I ctx.height n := by
  obtain ⟨before, msgs, hasc, hrun⟩ := h
  obtain ⟨_, m, hbefore, hopened⟩ := (bind_ok _ _).mp hrun
  obtain ⟨k, hlt, hm⟩ := hI.blocks before hasc hinit hbefore
  exact hI.opened hlt hm hopened

end Invariant

theorem reached_commit {before : List (Block A)} {msgs : List BlockMsg}
    (hheights : Increasing (before.map Block.height ++ [ctx.height]))
    (h : (upTo ctx before msgs start).returned = some ()) :
    Reached ctx start (commit (upTo ctx before msgs) start) :=
  ⟨before, msgs, hheights, ok_commit h⟩

theorem Reached.height_pos (h : Reached ctx start n) : 0 < ctx.height := by
  obtain ⟨before, msgs, hasc, -⟩ := h
  exact List.rel_of_pairwise_cons hasc (by simp)

theorem genesis_eq (bank : BankGenesis) (params : OracleParams) (staking : ValidatorSet) :
    genesis A bank params staking = ⟨⟨Chain.genesis A bank, some params, ∅, staking⟩, []⟩ := rfl

theorem genesis_twaps (bank : BankGenesis) : (Chain.genesis A bank).twaps = ∅ := by
  rw [Chain.genesis_eq]
  rfl

end Invariants

/-! Blocks and submissions on the development network. -/

section Devnet
open Devnet

def submit (validator : AccAddress) (denom : String) (price : Dec) : BlockMsg :=
  .submitPrice ⟨devnet.text validator, denom, some price⟩

/-- One bonded validator. -/
def aliceOnly : ValidatorSet := ⟨[⟨alice, .bonded, false⟩], by decide⟩

end Devnet

end Zytherion.OracleChain
