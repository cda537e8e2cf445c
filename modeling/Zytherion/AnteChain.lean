import Zytherion.ZytdMessages
import Zytherion.SecuredDebt

/-!
# The ante chain and the expiration window

A transaction is validated, passes the chain of ante decorators and then has its
messages handled one by one; a message of the authorization module hands on the
messages it contains. The application installs two decorators: one that only
logs a hash, and one that runs the SDK's standard handler and ends the chain.
The decorator that compares expiration heights with the block's height exists
and does what it documents to top-level messages, but it is not installed.

The standard handler and the grants of the authorization module belong to the
SDK. They are parameters.
-/
namespace Zytherion.AnteChain

open GoCall KeyedStore SdkMath Application ChainState StablecoinKeeper StablecoinMsgServer Chain
open ZytdMessages

inductive TxMsg where
  | zytd (msg : ZytdMsg)
  | exec (grantee : String) (msgs : List TxMsg)
  | other (typeURL : String)

/-- The envelope is what only the standard handler reads: fees, memo, signatures. -/
structure Tx where
  msgs : List TxMsg
  envelope : List UInt8

abbrev AnteHandler (A : App) : Type := Ctx A → Tx → (simulate : Bool) → Exec (Ctx A)

abbrev AnteDecorator (A : App) : Type :=
  Ctx A → Tx → (simulate : Bool) → (next : AnteHandler A) → Exec (Ctx A)

section Decorators
variable {A : App}

/-- The empty rest of a chain is the terminator, which accepts. -/
def chainAnteDecorators : List (AnteDecorator A) → AnteHandler A
  | [] => fun ctx _ _ => pure ctx
  | decorator :: chain => fun ctx tx simulate =>
      decorator ctx tx simulate (chainAnteDecorators chain)

/-- The hash it computes goes to the log only. -/
def pqcAnteDecorator : AnteDecorator A := fun ctx tx simulate next => next ctx tx simulate

/-- The wrapped handler is terminal: what would come next is ignored. -/
def baseAnteDecorator (handler : AnteHandler A) : AnteDecorator A := fun ctx tx simulate _ =>
  handler ctx tx simulate

def maxExpirationWindow : Int64 := 5

def errExpirationTooFar : Err := stablecoinErr 1600
  "expiration_block_height exceeds current block + 5 (max forward window)"

def errExpirationPast : Err := stablecoinErr 1601
  "expiration_block_height is in the past — transaction has expired"

/-- `ExpirationBlockHeighter`: the four messages of the stablecoin. -/
def TxMsg.getExpirationBlockHeight : TxMsg → Option Int64
  | zytd msg => some msg.getExpirationBlockHeight
  | _ => none

def checkExpiration (ctx : Ctx A) (i : ℕ) (exp : Int64) : Exec Unit := do
  require (!decide (exp < ctx.height))
    (.wrap ("msg[" ++ toString i ++ "]: expiration_block_height=" ++ toString exp ++
      " current_height=" ++ toString ctx.height ++ " — tx expired") errExpirationPast)
  let maxAllowed := ctx.height + maxExpirationWindow
  require (!decide (maxAllowed < exp))
    (.wrap ("msg[" ++ toString i ++ "]: expiration_block_height=" ++ toString exp ++
      " max_allowed=" ++ toString maxAllowed ++ " (current=" ++ toString ctx.height ++
      " + window=" ++ toString maxExpirationWindow ++ ")") errExpirationTooFar)

def checkMsgExpiration (ctx : Ctx A) (entry : TxMsg × ℕ) : Exec Unit :=
  match entry.1.getExpirationBlockHeight with
  | none => pure ()
  | some exp => checkExpiration ctx entry.2 exp

def zytdReplayProtectionDecorator : AnteDecorator A := fun ctx tx simulate next =>
  if simulate then next ctx tx simulate
  else do
    tx.msgs.zipIdx.forM (checkMsgExpiration ctx)
    next ctx tx simulate

/-- What `app.New` installs. -/
def anteHandler (base : AnteHandler A) : AnteHandler A :=
  chainAnteDecorators [pqcAnteDecorator, baseAnteDecorator base]

end Decorators

/-- What the SDK contributes to the path of a transaction. -/
structure Standard (A : App) where
  anteHandler : AnteHandler A
  authorized : (grantee : String) → TxMsg → Bool

/-- Handling a message is a sequence of grants to look up and handlers to call. -/
inductive Action where
  | check (grantee : String) (msg : TxMsg)
  | call (msg : ZytdMsg)

mutual

def TxMsg.actions : TxMsg → List Action
  | .zytd msg => [.call msg]
  | .exec grantee msgs => dispatchActions grantee msgs
  | .other _ => []

/-- `DispatchActions` of the authorization module. -/
def dispatchActions (grantee : String) : List TxMsg → List Action
  | [] => []
  | msg :: msgs => .check grantee msg :: (msg.actions ++ dispatchActions grantee msgs)

end

def errInvalidAddress : Err := .registered "sdk" 7 "invalid address"
def errInvalidRequest : Err := .registered "sdk" 18 "invalid request"

section Validation
variable (A : App)

mutual

def TxMsg.validateBasic : TxMsg → Exec Unit
  | .zytd msg => msg.validateBasic A
  | .exec grantee msgs => do
      let _ ← mapErr (fun e => .wrap ("invalid grantee address: " ++ e.text) errInvalidAddress)
        (ofExcept (A.accAddressFromBech32 grantee))
      require (!msgs.isEmpty) (.wrap "messages cannot be empty" errInvalidRequest)
      validateMsgs msgs
  | .other _ => pure ()

def validateMsgs : List TxMsg → Exec Unit
  | [] => pure ()
  | msg :: msgs => do
      msg.validateBasic
      validateMsgs msgs

end

/-- `validateBasicTxMsgs`. -/
def Tx.validateBasic (tx : Tx) : Exec Unit := do
  require (!tx.msgs.isEmpty) (.wrap "must contain at least one message" errInvalidRequest)
  validateMsgs A tx.msgs

end Validation

section Delivery
variable {A : App} (sdk : Standard A) (ctx : Ctx A)

/-- Everything before the first handler. -/
def antePhase (tx : Tx) : Exec Unit := do
  tx.validateBasic A
  let _ ← anteHandler sdk.anteHandler ctx tx false
  return ()

def perform : Action → Exec Unit
  | .check grantee msg => require (sdk.authorized grantee msg) errUnauthorized
  | .call msg => msg.handle ctx

def deliverTx (tx : Tx) : Exec Unit := do
  antePhase sdk ctx tx
  (tx.msgs.flatMap TxMsg.actions).forM (perform sdk ctx)

/-- The messages whose handlers are called, up to the first action that fails. -/
def called : List Action → State → List ZytdMsg
  | [], _ => []
  | action :: rest, s =>
      let after := match perform sdk ctx action s with
        | .ok _ t => called rest t
        | _ => []
      match action with
      | .check _ _ => after
      | .call msg => msg :: after

/-- The messages of the stablecoin a transaction executes. -/
def executed (tx : Tx) (s : State) : List ZytdMsg :=
  match antePhase sdk ctx tx s with
  | .ok _ t => called sdk ctx (tx.msgs.flatMap TxMsg.actions) t
  | _ => []

end Delivery

/-- The window the messages of the stablecoin are meant to be executed in. -/
def InWindow (height : Int64) (z : ZytdMsg) : Prop :=
  height.toInt ≤ z.getExpirationBlockHeight.toInt ∧
    z.getExpirationBlockHeight.toInt ≤ height.toInt + 5

section Window
variable {A : App}

/-- Some transaction in this block executes the message. -/
def ExecutedIn (sdk : Standard A) (ctx : Ctx A) (z : ZytdMsg) : Prop :=
  ∃ tx s, z ∈ executed sdk ctx tx s

def WindowEnforced (sdk : Standard A) (ctx : Ctx A) : Prop :=
  ∀ z, z.signed.isSome → ExecutedIn sdk ctx z → InWindow ctx.height z

/-- An account whose signed transactions the standard handler accepts in this
block, once there is the state that pays for them. -/
def Accepts (sdk : Standard A) (ctx : Ctx A) (a : AccAddress) : Prop :=
  ∀ z : ZytdMsg, (z.event ctx).signer = some a → (∀ s, z.validateBasic A s = .ok () s) →
    ∃ tx s c t, tx.msgs = [.zytd z] ∧ sdk.anteHandler ctx tx false s = .ok c t

/-- The installed chain is the standard handler. -/
theorem anteHandler_eq (base : AnteHandler A) : anteHandler base = base := rfl

/-- With the missing decorator in front of the standard handler, every top-level
message of an accepted transaction lies in the window. -/
theorem replayProtection_window {base : AnteHandler A} {ctx : Ctx A} {tx : Tx} {s t : State}
    {c : Ctx A} (h : chainAnteDecorators [pqcAnteDecorator, zytdReplayProtectionDecorator,
      baseAnteDecorator base] ctx tx false s = .ok c t) {z : ZytdMsg} (hz : .zytd z ∈ tx.msgs) :
    ctx.height ≤ z.getExpirationBlockHeight ∧
      z.getExpirationBlockHeight ≤ ctx.height + maxExpirationWindow := by
  simp only [chainAnteDecorators, pqcAnteDecorator, zytdReplayProtectionDecorator,
    Bool.false_eq_true, if_false, bind_ok] at h
  obtain ⟨_, m, hchecks, -⟩ := h
  obtain ⟨i, hi⟩ := List.mem_iff_getElem?.mp hz
  obtain ⟨_, _, _, hcheck⟩ := forM_ok_mem hchecks (List.mk_mem_zipIdx_iff_getElem?.mpr hi)
  simp only [checkMsgExpiration, TxMsg.getExpirationBlockHeight, checkExpiration, bind_ok,
    require_ok, Bool.not_eq_true', decide_eq_false_iff_not, Int64.not_lt] at hcheck
  obtain ⟨_, _, ⟨hpast, -⟩, hfar, -⟩ := hcheck
  exact ⟨hpast, hfar⟩

theorem executed_single {sdk : Standard A} {ctx : Ctx A} {tx : Tx} {z : ZytdMsg} {s t : State}
    {c : Ctx A} (hmsgs : tx.msgs = [.zytd z]) (hvalid : ∀ s, z.validateBasic A s = .ok () s)
    (hante : sdk.anteHandler ctx tx false s = .ok c t) : z ∈ executed sdk ctx tx s := by
  have hphase : antePhase sdk ctx tx s = .ok () t := by
    simp only [antePhase, Tx.validateBasic, hmsgs, validateMsgs, TxMsg.validateBasic, bind_ok,
      require_ok, pure_ok, anteHandler_eq]
    exact ⟨(), s, ⟨(), s, ⟨rfl, rfl⟩, (), s, hvalid s, trivial, rfl⟩, c, t, hante, trivial, rfl⟩
  simp only [executed, hphase, hmsgs, List.flatMap_cons, TxMsg.actions, List.cons_append, called]
  exact List.mem_cons_self

/-- A mint request of `a` with the expiration asked for. -/
def anyMint (A : App) (a : AccAddress) (expiration : Int64) : ZytdMsg :=
  .mint ⟨A.text a, "uzytc", some (.newInt 2), some (.newInt 1), expiration, [], []⟩

theorem anyMint_valid (a : AccAddress) {expiration : Int64} (h : 0 < expiration) (s : State) :
    (anyMint A a expiration).validateBasic A s = .ok () s := by
  simp only [anyMint, ZytdMsg.validateBasic, MsgMintZYTD.validateBasic, bind_ok, address_ok,
    requireDenom, requireExpiration, require_ok, requirePositive_ok, App.accAddressFromBech32_text]
  exact ⟨a, s, ⟨rfl, rfl⟩, (), s, ⟨by decide, rfl⟩, (), s, ⟨⟨_, rfl, by decide⟩, rfl⟩, (), s,
    ⟨⟨_, rfl, by decide⟩, rfl⟩, by simpa using h, rfl⟩

theorem anyMint_signer (ctx : Ctx A) (a : AccAddress) (expiration : Int64) :
    ((anyMint A a expiration).event ctx).signer = some a := by
  simp [anyMint, ZytdMsg.event, Event.signer, Except.toOption]

theorem Accepts.executed {sdk : Standard A} {ctx : Ctx A} {a : AccAddress}
    (h : Accepts sdk ctx a) {expiration : Int64} (hexp : 0 < expiration) :
    ExecutedIn sdk ctx (anyMint A a expiration) := by
  obtain ⟨tx, s, c, t, hmsgs, hante⟩ := h _ (anyMint_signer ctx a expiration) (anyMint_valid a hexp)
  exact ⟨tx, s, executed_single hmsgs (anyMint_valid a hexp) hante⟩

/-- A positive expiration outside the window of a height. -/
def strayExpiration (height : Int64) : Int64 := if height ≤ 1 then 100 else 1

theorem strayExpiration_pos (height : Int64) : 0 < strayExpiration height := by
  unfold strayExpiration
  split <;> decide

theorem strayExpiration_outside (a : AccAddress) (height : Int64) :
    ¬ InWindow height (anyMint A a (strayExpiration height)) := by
  rintro ⟨hlow, hhigh⟩
  simp only [anyMint, ZytdMsg.getExpirationBlockHeight, strayExpiration] at hlow hhigh
  split_ifs at hlow hhigh with h
  · have hle := Int64.le_iff_toInt_le.mp h
    have h1 : (1 : Int64).toInt = 1 := by decide
    have h100 : (100 : Int64).toInt = 100 := by decide
    omega
  · have hlt := Int64.lt_iff_toInt_lt.mp (Int64.not_le.mp h)
    omega

/-- The window is enforced at no height, and one message can be executed in any
two blocks however far apart. -/
theorem window_never_enforced (sdk : Standard A) (a : AccAddress) (ctx ctx' : Ctx A)
    (h : Accepts sdk ctx a) (h' : Accepts sdk ctx' a) :
    ¬ WindowEnforced sdk ctx ∧
      ∃ z : ZytdMsg, z.signed.isSome ∧ ExecutedIn sdk ctx z ∧ ExecutedIn sdk ctx' z := by
  have hpos := strayExpiration_pos ctx.height
  refine ⟨?_, anyMint A a (strayExpiration ctx.height), rfl, h.executed hpos, h'.executed hpos⟩
  intro henforced
  exact strayExpiration_outside a ctx.height (henforced _ rfl (h.executed hpos))

end Window

section Replay
open Devnet SecuredDebt

/-- A standard handler to which every transaction is properly signed and paid for. -/
def devnetSdk : Standard devnet := ⟨fun ctx _ _ => pure ctx, fun _ _ => false⟩

theorem devnetSdk_accepts (ctx : Ctx devnet) : Accepts devnetSdk ctx alice := fun z _ _ =>
  ⟨⟨[.zytd z], []⟩, genesis devnet treasury, ctx, genesis devnet treasury, rfl, rfl⟩

/-- Fifty blocks into the chain. -/
def laterBlock : Ctx devnet := { block with height := 50 }

def lateTx : Tx := ⟨[.zytd (anyMint devnet alice 100)], []⟩

/-- `uzytc` at price one. -/
def pricedState : State := run step (genesis devnet treasury) [priced 1000000000000000000]

def onceMinted : State := commit (deliverTx devnetSdk block lateTx) pricedState

def twiceMinted : State := commit (deliverTx devnetSdk laterBlock lateTx) onceMinted

/-- In block 1 a mint that expires at height 100 is executed; the same
transaction is executed again in block 50, and both mint. -/
theorem mint_replayed :
    anyMint devnet alice 100 ∈ executed devnetSdk block lateTx pricedState ∧
    ¬ InWindow block.height (anyMint devnet alice 100) ∧
    anyMint devnet alice 100 ∈ executed devnetSdk laterBlock lateTx onceMinted ∧
    block.height.toInt + 5 < laterBlock.height.toInt ∧
    (totalSupplyOf twiceMinted).val = 2 := by
  refine ⟨executed_single rfl (anyMint_valid alice (by decide)) rfl, ?_,
    executed_single rfl (anyMint_valid alice (by decide)) rfl, by decide, by decide +kernel⟩
  rintro ⟨-, hhigh⟩
  exact absurd hhigh (by decide)

theorem window_never_enforced_devnet :
    (Accepts devnetSdk block alice ∧ Accepts devnetSdk laterBlock alice) ∧
    ¬ WindowEnforced devnetSdk block ∧
      ∃ z : ZytdMsg, z.signed.isSome ∧ ExecutedIn devnetSdk block z ∧
        ExecutedIn devnetSdk laterBlock z :=
  ⟨⟨devnetSdk_accepts _, devnetSdk_accepts _⟩,
    window_never_enforced devnetSdk alice block laterBlock (devnetSdk_accepts _)
      (devnetSdk_accepts _)⟩

end Replay

end Zytherion.AnteChain
