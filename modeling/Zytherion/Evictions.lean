import Zytherion.RentAmounts
import Zytherion.CallFrames

/-!
# Evictions and the defaults before them

A commitment whose owner cannot pay gets a grace marker, the height of the first
call that failed. A later payment clears the marker, and an eviction needs one
that is old enough. Nothing else clears it: a call at which no block has passed,
or at which the commitment lies in the free tier, returns nil and leaves it. The
key is then evicted although the last call for it did not fail.

A marker is always the height of a failed call, so that evictions are justified as
long as every call during a grace period has rent to collect. Each call that has
none can be followed by an eviction that is not.
-/
namespace Zytherion.Evictions

open GoCall KeyedStore SdkMath Application ChainState Bank ByteStrings Commitments StateRent
open RentAmounts

section Keeper
variable {A : App} (J : RentJSON) (ctx : Ctx A) (commitmentKey : String)

/-- The part of `CheckAndEvict` that deletes: the data, if there are any, and the
two records of the rent. -/
def evicted (s : KVStore) : KVStore :=
  ((s.delete (utf8 commitmentKey)).delete (rentLastChargedKey commitmentKey)).delete
    (rentGraceStartKey commitmentKey)

def checkAndEvict : Handler Bool := do
  let graceStart ← gets fun w => getGraceStart J commitmentKey w.store
  if graceStart = 0 then return false
  else
    let params ← gets fun w => getStateRentParams J w.store
    if ctx.height - graceStart < params.gracePeriodBlocks then return false
    else
      -- the store does not look up an empty key
      panicUnless (commitmentKey ≠ "") "key is nil"
      onStore (modifyStore (evicted commitmentKey))
      return true

end Keeper

/-- The calls of a history. A collection comes with the bank it meets. -/
inductive RentOp where
  | collectRent (bank : State) (commitmentKey : String) (owner : AccAddress) (sizeBytes : Int64)
  | checkAndEvict (commitmentKey : String)
  | setStateRentParams (params : StateRentParams)

structure RentCall (A : App) where
  ctx : Ctx A
  op : RentOp

section Histories
variable {A : App} (J : RentCodec)

/-- What a call returns, an eviction true. -/
def RentCall.exec (c : RentCall A) : Handler Bool :=
  match c.op with
  | .collectRent bank commitmentKey owner sizeBytes => do
      modifyStore fun w => { w with bank := bank }
      StateRent.collectRent J.toRentJSON c.ctx commitmentKey owner sizeBytes
      return false
  | .checkAndEvict commitmentKey => Evictions.checkAndEvict J.toRentJSON c.ctx commitmentKey
  | .setStateRentParams params => do
      RentAmounts.setStateRentParams J params
      return false

/-- The keeper has no rollback of its own: a failed call leaves what it wrote. Only
a panic leaves nothing. -/
def after (w : PrivacyState) (c : RentCall A) : PrivacyState := (c.exec J w).left.getD w

/-- The call collects rent for a key. -/
def RentCall.Collects (c : RentCall A) (key : String) : Prop :=
  ∃ bank owner size, c.op = .collectRent bank key owner size

def ReturnsNil (w : PrivacyState) (c : RentCall A) (key : String) : Prop :=
  c.Collects key ∧ ∃ b t, c.exec J w = .ok b t

def Fails (w : PrivacyState) (c : RentCall A) (key : String) : Prop :=
  c.Collects key ∧ ∃ e t, c.exec J w = .err e t

/-- The default of a key is unbroken: some call for it failed at least a grace
period before height `h`, and no later call above that height returned nil. -/
def Justified (w : PrivacyState) (key : String) (calls : List (RentCall A)) (h grace : ℤ) : Prop :=
  ∃ before f later, calls = before ++ f :: later ∧ Fails J (run (after J) w before) f key ∧
    f.ctx.height.toInt ≤ h - grace ∧
    ∀ mid c rest, later = mid ++ c :: rest → f.ctx.height.toInt < c.ctx.height.toInt →
      ¬ReturnsNil J (run (after J) w (before ++ f :: mid)) c key

/-- The grace period the keeper reads. -/
def gracePeriod (w : PrivacyState) : ℤ :=
  (getStateRentParams J.toRentJSON w.store).gracePeriodBlocks.toInt

/-- Heights above zero that do not decrease. -/
def Ordered (calls : List (RentCall A)) : Prop :=
  (∀ c ∈ calls, 0 < c.ctx.height.toInt) ∧
    (calls.map fun c => c.ctx.height.toInt).Pairwise (· ≤ ·)

def settingsAt (ctx : Ctx A) (settings : List StateRentParams) : List (RentCall A) :=
  settings.map fun p => ⟨ctx, .setStateRentParams p⟩

/-- Wherever the history stops, new parameters and a check of the key evict it only
if its default is unbroken. -/
def EvictionsJustified (w : PrivacyState) (key : String) (calls : List (RentCall A)) : Prop :=
  ∀ before, before <+: calls → ∀ (ctx : Ctx A) (settings : List StateRentParams),
    Ordered (before ++ [⟨ctx, .checkAndEvict key⟩]) →
    ∀ t, Evictions.checkAndEvict J.toRentJSON ctx key
      (run (after J) w (before ++ settingsAt ctx settings)) = .ok true t →
      Justified J w key (before ++ settingsAt ctx settings) ctx.height.toInt
        (gracePeriod J (run (after J) w (before ++ settingsAt ctx settings)))

/-- The height the grace period of a key began at, zero outside of one. -/
def marker (w : PrivacyState) (key : String) : Int64 := getGraceStart J.toRentJSON key w.store

/-- A collection has something to collect: blocks have passed since the last charge,
and they cost more than nothing. -/
def Billed (w : PrivacyState) (ctx : Ctx A) (key : String) (size : Int64) : Prop :=
  0 < ctx.height - getRentLastCharged J.toRentJSON ctx key w.store ∧
    ∀ due, (getStateRentParams J.toRentJSON w.store).rentDue size
      (ctx.height - getRentLastCharged J.toRentJSON ctx key w.store) = .ok due →
        due.amount.isZero = false

/-- A call for the key above the height of its marker has something to collect. -/
def BilledInGrace (key : String) (w : PrivacyState) (c : RentCall A) : Prop :=
  match c.op with
  | .collectRent _ k _ size => k = key → marker J w key ≠ 0 →
      (marker J w key).toInt < c.ctx.height.toInt → Billed J w c.ctx key size
  | _ => True

end Histories

section Keys

theorem rentGraceStartKey_inj {k l : String} (h : rentGraceStartKey k = rentGraceStartKey l) :
    k = l :=
  (String.append_right_inj _).mp (utf8_inj h)

theorem grace_ne_last (k l : String) : rentGraceStartKey k ≠ rentLastChargedKey l := by
  intro h
  have hchars := congrArg (fun s : String => s.toList.take 6) (utf8_inj h)
  simp [String.toList_append] at hchars

theorem grace_ne_params (k : String) : rentGraceStartKey k ≠ stateRentParamsKey := by
  intro h
  have hchars := congrArg (fun s : String => s.toList.take 1) (utf8_inj h)
  simp [String.toList_append] at hchars

end Keys

section Markers
variable (J : RentCodec) (s : KVStore) (key : String)

theorem graceStart_set_other {k v : List UInt8} (h : rentGraceStartKey key ≠ k) :
    getGraceStart J.toRentJSON key (s.set k v) = getGraceStart J.toRentJSON key s := by
  rw [getGraceStart, getGraceStart, Store.get_set_ne _ _ h]

theorem graceStart_set (k : String) (h : Int64) :
    getGraceStart J.toRentJSON key (s.set (rentGraceStartKey k) (J.marshalHeight h)) =
      if key = k then h else getGraceStart J.toRentJSON key s := by
  split_ifs with hk
  · rw [hk, getGraceStart, Store.get_set_self]
    simp [J.unmarshal_marshalHeight]
  · exact graceStart_set_other J s key (mt rentGraceStartKey_inj hk)

theorem graceStart_delete (k : List UInt8) :
    getGraceStart J.toRentJSON key (s.delete k) = 0 ∨
      getGraceStart J.toRentJSON key (s.delete k) = getGraceStart J.toRentJSON key s := by
  by_cases hk : rentGraceStartKey key = k
  · left
    rw [getGraceStart, hk, Store.get_delete_self]
  · right
    rw [getGraceStart, getGraceStart, Store.get_delete_ne _ hk]

end Markers

section Calls
variable {A : App} {J : RentCodec} {ctx : Ctx A} {w w' : PrivacyState} {u : Unit} {e : Err}
  {key : String} {owner : AccAddress} {size : Int64}

theorem onBank_keeps {α : Type} (x : Exec α) : Keeps PrivacyState.store (onBank x) :=
  have hx : Keeps (fun _ => ()) x := fun _ _ _ => rfl
  Keeps.zoom hx fun _ _ _ => rfl

/-- The store with a marker for the key, its own if it has one. -/
def marked (J : RentJSON) (key : String) (height : Int64) (s : KVStore) : KVStore :=
  if getGraceStart J key s = 0 then s.set (rentGraceStartKey key) (J.marshalHeight height) else s

theorem handleRentDefault_eq (height : Int64) :
    handleRentDefault J.toRentJSON key height w =
      .ok () { w with store := marked J.toRentJSON key height w.store } := by
  have heq : handleRentDefault J.toRentJSON key height w =
      (if getGraceStart J.toRentJSON key w.store = 0 then setGraceStart J.toRentJSON key height
        else pure () : Handler Unit) w := rfl
  rw [heq, marked]
  split_ifs <;> rfl

/-- A payment records the height and clears the marker. -/
def paid (J : RentJSON) (key : String) (height : Int64) (s : KVStore) : KVStore :=
  (s.set (rentLastChargedKey key) (J.marshalHeight height)).delete (rentGraceStartKey key)

theorem chargeRent_ok {due : Coin}
    (h : chargeRent J.toRentJSON ctx key owner due w = .ok u w') :
    w'.store = paid J.toRentJSON key ctx.height w.store := by
  obtain ⟨coins, m, hcoins, h⟩ := (bind_ok _ _).mp h
  obtain ⟨-, rfl⟩ := (liftM_ok _).mp hcoins
  cases hsend : onBank (sendCoinsFromAccountToModule ctx owner moduleName coins) w with
  | ok v w₁ =>
      simp only [hsend] at h
      obtain ⟨_, w₂, hburn, h⟩ := (bind_ok _ _).mp h
      simp only [setRentLastCharged, clearGracePeriod, bind_ok, onStore_ok, modifyStore_ok] at h
      obtain ⟨_, _, ⟨_, rfl, rfl⟩, _, rfl, rfl⟩ := h
      rw [← (onBank_keeps _).ok hsend, ← (onBank_keeps _).ignoreErr.ok hburn]
      rfl
  | err e w₁ =>
      simp only [hsend] at h
      obtain ⟨_, _, -, h⟩ := (bind_ok _ _).mp h
      simp at h
  | panic r => simp [hsend] at h

theorem chargeRent_err {due : Coin}
    (h : chargeRent J.toRentJSON ctx key owner due w = .err e w') :
    w'.store = marked J.toRentJSON key ctx.height w.store := by
  rcases (bind_err _ _).mp h with hcoins | ⟨coins, m, hcoins, h⟩
  · exact ((liftM_err _).mp hcoins).elim
  obtain ⟨-, rfl⟩ := (liftM_ok _).mp hcoins
  cases hsend : onBank (sendCoinsFromAccountToModule ctx owner moduleName coins) w with
  | ok v w₁ =>
      -- what follows a successful send returns no error
      simp only [hsend] at h
      rcases (bind_err _ _).mp h with hburn | ⟨_, w₂, -, h⟩
      · exact absurd hburn (by unfold ignoreErr; split <;> simp)
      · exact absurd h (by
          show ¬(Outcome.ok () _ = _)
          simp)
  | err e₁ w₁ =>
      simp only [hsend, handleRentDefault_eq, bind_err, reduceCtorEq, false_or, Outcome.ok.injEq,
        require_err] at h
      obtain ⟨_, _, ⟨-, rfl⟩, -, -, rfl⟩ := h
      rw [← (onBank_keeps _).err hsend]
  | panic r => simp [hsend] at h

/-- A call with nothing to collect returns nil and writes at most the height. -/
theorem collectRent_unbilled (owner : AccAddress) (h : ¬Billed J w ctx key size) :
    ∃ w', StateRent.collectRent J.toRentJSON ctx key owner size w = .ok () w' ∧
      (w'.store = w.store ∨
        w'.store = w.store.set (rentLastChargedKey key) (J.marshalHeight ctx.height)) := by
  by_cases hblocks : ctx.height - getRentLastCharged J.toRentJSON ctx key w.store ≤ 0
  · refine ⟨w, ?_, .inl rfl⟩
    simp only [StateRent.collectRent, bind_ok, gets_ok]
    exact ⟨_, w, ⟨rfl, rfl⟩, _, w, ⟨rfl, rfl⟩, by rw [if_pos hblocks]; rfl⟩
  · have hdue : ∃ due, (getStateRentParams J.toRentJSON w.store).rentDue size
        (ctx.height - getRentLastCharged J.toRentJSON ctx key w.store) = .ok due ∧
          due.amount.isZero = true := by
      by_contra hnone
      refine h ⟨Int64.not_le.mp hblocks, fun due hdue => ?_⟩
      by_contra hzero
      exact hnone ⟨due, hdue, by simpa using hzero⟩
    obtain ⟨due, hdue, hzero⟩ := hdue
    let charged := w.store.set (rentLastChargedKey key) (J.marshalHeight ctx.height)
    refine ⟨{ w with store := charged }, ?_, .inr rfl⟩
    simp only [StateRent.collectRent, bind_ok, gets_ok]
    refine ⟨_, w, ⟨rfl, rfl⟩, _, w, ⟨rfl, rfl⟩, ?_⟩
    rw [if_neg hblocks, bind_ok]
    refine ⟨due, w, (liftM_ok _).mpr ⟨hdue, rfl⟩, ?_⟩
    rw [if_pos hzero]
    rfl

/-- A call with something to collect charges for it, or panics on the way. -/
theorem collectRent_billed (owner : AccAddress) (h : Billed J w ctx key size) :
    (∃ due, StateRent.collectRent J.toRentJSON ctx key owner size w =
      chargeRent J.toRentJSON ctx key owner due w) ∨
    ∃ r, StateRent.collectRent J.toRentJSON ctx key owner size w = .panic r := by
  have hblocks := Int64.not_le.mpr h.1
  have heq : StateRent.collectRent J.toRentJSON ctx key owner size w =
      (liftM ((getStateRentParams J.toRentJSON w.store).rentDue size
          (ctx.height - getRentLastCharged J.toRentJSON ctx key w.store)) >>= fun due =>
        if due.amount.isZero then setRentLastCharged J.toRentJSON key ctx.height
        else chargeRent J.toRentJSON ctx key owner due : Handler Unit) w := by
    show (if _ then _ else _ : Handler Unit) w = _
    rw [if_neg hblocks]
  rw [heq]
  cases hdue : (getStateRentParams J.toRentJSON w.store).rentDue size
      (ctx.height - getRentLastCharged J.toRentJSON ctx key w.store) with
  | ok due =>
      left
      refine ⟨due, ?_⟩
      have hzero := h.2 due hdue
      show (if due.amount.isZero then _ else _ : Handler Unit) w = _
      rw [hzero]
      rfl
  | error r => exact .inr ⟨r, rfl⟩

end Calls

section Steps
variable {A : App} {J : RentCodec} {w t : PrivacyState} {c : RentCall A} {key : String}

theorem after_ok {b : Bool} (h : c.exec J w = .ok b t) : after J w c = t := by
  rw [after, h]
  rfl

theorem after_err {e : Err} (h : c.exec J w = .err e t) : after J w c = t := by
  rw [after, h]
  rfl

theorem after_panicked (h : (c.exec J w).panicked = true) : after J w c = w := by
  rw [after]
  cases hexec : c.exec J w with
  | panic r => rfl
  | _ => simp [hexec, Outcome.panicked] at h

section Collections
variable {bank : State} {k : String} {owner : AccAddress} {size : Int64}
  (hop : c.op = .collectRent bank k owner size)
include hop

/-- A collection is the keeper's call on the bank it comes with. -/
theorem exec_collect : c.exec J w =
    (StateRent.collectRent J.toRentJSON c.ctx k owner size >>= fun _ => pure false)
      { w with bank := bank } := by
  rw [RentCall.exec, hop]
  rfl

/-- What a collection returns and what it does to the store. -/
theorem collect_cases :
    (¬Billed J w c.ctx k size ∧ (∃ t, c.exec J w = .ok false t) ∧
      ((after J w c).store = w.store ∨
        (after J w c).store = w.store.set (rentLastChargedKey k) (J.marshalHeight c.ctx.height))) ∨
    (Billed J w c.ctx k size ∧ (∃ t, c.exec J w = .ok false t) ∧
      (after J w c).store = paid J.toRentJSON k c.ctx.height w.store) ∨
    (Billed J w c.ctx k size ∧ (∃ e t, c.exec J w = .err e t) ∧
      (after J w c).store = marked J.toRentJSON k c.ctx.height w.store) ∨
    (Billed J w c.ctx k size ∧ (c.exec J w).panicked = true ∧
      (after J w c).store = w.store) := by
  set wb : PrivacyState := { w with bank := bank } with hwb
  have hstore : wb.store = w.store := rfl
  have hexec : c.exec J w = (StateRent.collectRent J.toRentJSON c.ctx k owner size >>=
      fun _ => pure false) wb := exec_collect hop
  by_cases hbilled : Billed J wb c.ctx k size
  · rcases collectRent_billed owner hbilled with ⟨due, heq⟩ | ⟨r, hpanic⟩
    · cases hcharge : chargeRent J.toRentJSON c.ctx k owner due wb with
      | ok u t =>
          have hok : c.exec J w = .ok false t := by
            rw [hexec, bind_ok]
            exact ⟨u, t, heq.trans hcharge, rfl⟩
          rw [after_ok hok, ← hstore]
          exact .inr (.inl ⟨hbilled, ⟨t, hok⟩, chargeRent_ok hcharge⟩)
      | err e t =>
          have herr : c.exec J w = .err e t := by
            rw [hexec, bind_err]
            exact .inl (heq.trans hcharge)
          rw [after_err herr, ← hstore]
          exact .inr (.inr (.inl ⟨hbilled, ⟨e, t, herr⟩, chargeRent_err hcharge⟩))
      | panic r =>
          have hpanic : (c.exec J w).panicked = true := by
            rw [hexec, bind_panicked, heq, hcharge]
            exact .inl rfl
          exact .inr (.inr (.inr ⟨hbilled, hpanic, by rw [after_panicked hpanic]⟩))
    · have hpanic : (c.exec J w).panicked = true := by
        rw [hexec, bind_panicked, hpanic]
        exact .inl rfl
      exact .inr (.inr (.inr ⟨hbilled, hpanic, by rw [after_panicked hpanic]⟩))
  · obtain ⟨t, hok, hcharged⟩ := collectRent_unbilled owner hbilled
    have hok : c.exec J w = .ok false t := by
      rw [hexec, bind_ok]
      exact ⟨(), t, hok, rfl⟩
    rw [after_ok hok]
    exact .inl ⟨hbilled, ⟨t, hok⟩, hcharged⟩

end Collections

/-- A payment leaves the marker of another key, and clears that of its own. -/
theorem graceStart_paid (J : RentCodec) (s : KVStore) (key k : String) (h : Int64) :
    getGraceStart J.toRentJSON key (paid J.toRentJSON k h s) =
      if key = k then 0 else getGraceStart J.toRentJSON key s := by
  rw [paid]
  split_ifs with hk
  · rw [hk, getGraceStart, Store.get_delete_self]
  · have hne : rentGraceStartKey key ≠ rentGraceStartKey k := mt rentGraceStartKey_inj hk
    rw [getGraceStart, Store.get_delete_ne _ hne, ← getGraceStart,
      graceStart_set_other _ _ _ (grace_ne_last _ _)]

theorem graceStart_marked (J : RentCodec) (s : KVStore) (key k : String) (h : Int64) :
    getGraceStart J.toRentJSON key (marked J.toRentJSON k h s) = getGraceStart J.toRentJSON key s ∨
      (key = k ∧ getGraceStart J.toRentJSON key (marked J.toRentJSON k h s) = h) := by
  unfold marked
  split_ifs with hnone
  · rw [graceStart_set]
    split_ifs with hk
    · exact .inr ⟨hk, rfl⟩
    · exact .inl rfl
  · exact .inl rfl

theorem graceStart_evicted (J : RentCodec) (s : KVStore) (key k : String) :
    getGraceStart J.toRentJSON key (evicted k s) = 0 ∨
      getGraceStart J.toRentJSON key (evicted k s) = getGraceStart J.toRentJSON key s := by
  unfold evicted
  rcases graceStart_delete J ((s.delete (utf8 k)).delete (rentLastChargedKey k)) key
    (rentGraceStartKey k) with h | h
  · exact .inl h
  rcases graceStart_delete J (s.delete (utf8 k)) key (rentLastChargedKey k) with h' | h'
  · exact .inl (h.trans h')
  · exact (graceStart_delete J s key (utf8 k)).imp (h.trans h').trans (h.trans h').trans

/-- What a check returns. -/
theorem checkAndEvict_eq (J : RentCodec) (ctx : Ctx A) (key : String) (w : PrivacyState) :
    Evictions.checkAndEvict J.toRentJSON ctx key w =
      if marker J w key = 0 ∨ ctx.height - marker J w key <
          (getStateRentParams J.toRentJSON w.store).gracePeriodBlocks then .ok false w
      else if key = "" then .panic "key is nil"
      else .ok true { w with store := evicted key w.store } := by
  by_cases hnone : marker J w key = 0
  · rw [if_pos (.inl hnone)]
    show (if marker J w key = 0 then _ else _ : Handler Bool) w = _
    rw [if_pos hnone]
    rfl
  have hsome : Evictions.checkAndEvict J.toRentJSON ctx key w =
      (if ctx.height - marker J w key <
          (getStateRentParams J.toRentJSON w.store).gracePeriodBlocks then pure false
        else liftM (panicUnless (key ≠ "") "key is nil") >>= fun _ =>
          onStore (modifyStore (evicted key)) >>= fun _ => pure true : Handler Bool) w := by
    show (if marker J w key = 0 then _ else _ : Handler Bool) w = _
    rw [if_neg hnone]
    rfl
  rw [hsome]
  by_cases hearly : ctx.height - marker J w key <
      (getStateRentParams J.toRentJSON w.store).gracePeriodBlocks
  · rw [if_pos hearly, if_pos (.inr hearly)]
    rfl
  · rw [if_neg hearly, if_neg (not_or.mpr ⟨hnone, hearly⟩)]
    by_cases hempty : key = ""
    · rw [if_pos hempty, hempty]
      rfl
    · rw [if_neg hempty, decide_eq_true hempty]
      rfl

theorem exec_check {k : String} (hop : c.op = .checkAndEvict k) :
    c.exec J w = Evictions.checkAndEvict J.toRentJSON c.ctx k w := by
  rw [RentCall.exec, hop]

theorem exec_set {p : StateRentParams} (hop : c.op = .setStateRentParams p) :
    c.exec J w =
      .ok false { w with store := w.store.set stateRentParamsKey (J.marshalParams p) } := by
  rw [RentCall.exec, hop]
  rfl

/-- What a call can do to the marker of a key: nothing, clear it, or set one where
there was none, because it failed. -/
theorem marker_after (J : RentCodec) (w : PrivacyState) (c : RentCall A) (key : String) :
    marker J (after J w c) key = marker J w key ∨ marker J (after J w c) key = 0 ∨
      (Fails J w c key ∧ marker J (after J w c) key = c.ctx.height) := by
  unfold marker
  cases hop : c.op with
  | collectRent bank k owner size =>
      rcases collect_cases (J := J) (w := w) hop with ⟨-, -, h | h⟩ | ⟨-, -, h⟩ |
        ⟨-, ⟨e, t, herr⟩, h⟩ | ⟨-, -, h⟩
      · rw [h]
        exact .inl rfl
      · rw [h]
        exact .inl (graceStart_set_other _ _ _ (grace_ne_last _ _))
      · rw [h, graceStart_paid]
        split_ifs
        · exact .inr (.inl rfl)
        · exact .inl rfl
      · rw [h]
        rcases graceStart_marked J w.store key k c.ctx.height with hsame | ⟨rfl, hmark⟩
        · exact .inl hsame
        · exact .inr (.inr ⟨⟨⟨bank, owner, size, hop⟩, e, t, herr⟩, hmark⟩)
      · rw [h]
        exact .inl rfl
  | checkAndEvict k =>
      have hexec := (exec_check (J := J) (w := w) hop).trans (checkAndEvict_eq J c.ctx k w)
      split_ifs at hexec with hkept hempty
      · rw [after_ok hexec]
        exact .inl rfl
      · rw [after_panicked (by rw [hexec]; rfl)]
        exact .inl rfl
      · rw [after_ok hexec]
        exact (graceStart_evicted J w.store key k).symm.imp_right .inl
  | setStateRentParams p =>
      rw [after_ok (exec_set hop)]
      exact .inl (graceStart_set_other _ _ _ (grace_ne_params _))

/-- A collection with nothing to collect returns nil and leaves the marker. -/
theorem marker_unbilled {bank : State} {owner : AccAddress} {size : Int64}
    (hop : c.op = .collectRent bank key owner size) (h : ¬Billed J w c.ctx key size) :
    ReturnsNil J w c key ∧ marker J (after J w c) key = marker J w key := by
  unfold marker
  rcases collect_cases (J := J) (w := w) hop with ⟨-, ⟨t, hok⟩, hstore⟩ | ⟨hb, -⟩ | ⟨hb, -⟩ |
    ⟨hb, -⟩
  · refine ⟨⟨⟨bank, owner, size, hop⟩, false, t, hok⟩, ?_⟩
    rcases hstore with hstore | hstore
    · rw [hstore]
    · rw [hstore, graceStart_set_other _ _ _ (grace_ne_last _ _)]
  all_goals exact absurd hb h

/-- New parameters can end a grace period at once. -/
theorem check_after_setting (ctx : Ctx A) (p : StateRentParams) (hkey : key ≠ "")
    (hmarker : marker J w key ≠ 0) (hp : p.gracePeriodBlocks = ctx.height - marker J w key) :
    (∃ t, Evictions.checkAndEvict J.toRentJSON ctx key (after J w ⟨ctx, .setStateRentParams p⟩) =
      .ok true t) ∧
    gracePeriod J (after J w ⟨ctx, .setStateRentParams p⟩) =
      (ctx.height - marker J w key).toInt := by
  have hset := after_ok (exec_set (J := J) (w := w)
    (c := ⟨ctx, .setStateRentParams p⟩) rfl)
  have hkept : marker J (after J w ⟨ctx, .setStateRentParams p⟩) key = marker J w key := by
    rw [hset]
    exact graceStart_set_other _ _ _ (grace_ne_params _)
  have hparams : getStateRentParams J.toRentJSON (after J w ⟨ctx, .setStateRentParams p⟩).store =
      p := by
    rw [hset]
    exact getStateRentParams_set J w.store p
  constructor
  · rw [checkAndEvict_eq, hkept, hparams, hp,
      if_neg (not_or.mpr ⟨hmarker, Int64.lt_irrefl⟩), if_neg hkey]
    exact ⟨_, rfl⟩
  · rw [gracePeriod, hparams, hp]

/-- In a grace period a call that returns nil with something to collect ends it. -/
theorem marker_paid (hbilled : BilledInGrace J key w c) (hnil : ReturnsNil J w c key)
    (hmarker : marker J w key ≠ 0)
    (hlt : (marker J w key).toInt < c.ctx.height.toInt) : marker J (after J w c) key = 0 := by
  obtain ⟨⟨bank, owner, size, hop⟩, b, t, hok⟩ := hnil
  rw [BilledInGrace, hop] at hbilled
  have hsome := hbilled rfl hmarker hlt
  unfold marker
  rcases collect_cases (J := J) (w := w) hop with ⟨hnone, -⟩ | ⟨-, -, h⟩ | ⟨-, ⟨e, u, herr⟩, -⟩ |
    ⟨-, hpanic, -⟩
  · exact absurd hsome hnone
  · rw [h, graceStart_paid, if_pos rfl]
  · simp [hok] at herr
  · simp [hok, Outcome.panicked] at hpanic

end Steps

section Runs
variable {A : App} {J : RentCodec} {w : PrivacyState} {key : String} {calls : List (RentCall A)}

theorem not_billedInGrace {c : RentCall A} (h : ¬BilledInGrace J key w c) :
    ∃ bank owner size, c.op = .collectRent bank key owner size ∧ marker J w key ≠ 0 ∧
      (marker J w key).toInt < c.ctx.height.toInt ∧ ¬Billed J w c.ctx key size := by
  cases hop : c.op with
  | collectRent bank k owner size =>
      rw [BilledInGrace, hop] at h
      simp only [Classical.not_imp] at h
      obtain ⟨rfl, hmarker, hlt, hnot⟩ := h
      exact ⟨bank, owner, size, rfl, hmarker, hlt, hnot⟩
  | _ => simp [BilledInGrace, hop] at h

/-- A marker is the height of a call. -/
theorem marker_height (hstart : marker J w key = 0)
    (hmarker : marker J (run (after J) w calls) key ≠ 0) :
    ∃ c ∈ calls, c.ctx.height = marker J (run (after J) w calls) key := by
  induction calls using List.reverseRecOn with
  | nil => exact absurd hstart hmarker
  | append_singleton calls c ih =>
      rw [run_snoc] at hmarker ⊢
      rcases marker_after J (run (after J) w calls) c key with hsame | hzero | ⟨-, hheight⟩
      · rw [hsame] at hmarker ⊢
        obtain ⟨d, hd, hheight⟩ := ih hmarker
        exact ⟨d, List.mem_append_left _ hd, hheight⟩
      · exact absurd hzero hmarker
      · exact ⟨c, by simp, hheight.symm⟩

/-- A marker is the height of a failed call, and no call above it has returned nil
since, where every call in the grace period had something to collect. -/
theorem marker_unbroken (hstart : marker J w key = 0)
    (hbilled : Along (after J) (BilledInGrace J key) w calls)
    (hmarker : marker J (run (after J) w calls) key ≠ 0) :
    ∃ before f later, calls = before ++ f :: later ∧ Fails J (run (after J) w before) f key ∧
      f.ctx.height = marker J (run (after J) w calls) key ∧
      ∀ mid c rest, later = mid ++ c :: rest → f.ctx.height.toInt < c.ctx.height.toInt →
        ¬ReturnsNil J (run (after J) w (before ++ f :: mid)) c key := by
  induction calls using List.reverseRecOn with
  | nil => exact absurd hstart hmarker
  | append_singleton calls c ih =>
      obtain ⟨hcalls, hc, -⟩ := along_append.mp hbilled
      rw [run_snoc] at hmarker ⊢
      rcases marker_after J (run (after J) w calls) c key with hsame | hzero | ⟨hfails, hheight⟩
      · rw [hsame] at hmarker ⊢
        obtain ⟨before, f, later, rfl, hf, hheight, hlater⟩ := ih hcalls hmarker
        refine ⟨before, f, later ++ [c], by simp, hf, hheight, fun mid d rest hsplit hlt => ?_⟩
        rcases snoc_eq_iff.mp hsplit with ⟨-, rfl, rfl⟩ | ⟨r, -, rfl⟩
        · -- the new call would have ended the grace period
          intro hnil
          rw [hheight] at hlt
          exact hmarker (hsame ▸ marker_paid hc hnil hmarker hlt)
        · exact hlater mid d r rfl hlt
      · exact absurd hzero hmarker
      · refine ⟨calls, c, [], rfl, hfails, hheight.symm, fun mid d rest hsplit => ?_⟩
        simp at hsplit

theorem Ordered.of_mem {ctx : Ctx A} {op : RentOp} {settings : List StateRentParams}
    (h : Ordered (calls ++ [⟨ctx, op⟩])) {f : RentCall A}
    (hf : f ∈ calls ++ settingsAt ctx settings) :
    0 < f.ctx.height.toInt ∧ f.ctx.height.toInt ≤ ctx.height.toInt := by
  obtain ⟨hpos, hle⟩ := h
  rw [List.map_append, List.pairwise_append] at hle
  rcases List.mem_append.mp hf with hf | hf
  · exact ⟨hpos f (List.mem_append_left _ hf),
      hle.2.2 _ (List.mem_map_of_mem hf) _ (by simp)⟩
  · obtain ⟨p, -, rfl⟩ := List.mem_map.mp hf
    exact ⟨hpos ⟨ctx, op⟩ (by simp), le_refl _⟩

theorem Ordered.of_sublist {some all : List (RentCall A)} (h : Ordered all)
    (hsub : some.Sublist all) : Ordered some :=
  ⟨fun c hc => h.1 c (hsub.subset hc), h.2.sublist (hsub.map _)⟩

/-- One more call at the height of the last one. -/
theorem Ordered.again {before later : List (RentCall A)} {c : RentCall A} {op : RentOp}
    (h : Ordered (before ++ c :: later)) : Ordered (before ++ [c] ++ [⟨c.ctx, op⟩]) := by
  obtain ⟨hpos, hle⟩ := h
  rw [List.map_append, List.pairwise_append] at hle
  obtain ⟨hbefore, -, hcross⟩ := hle
  have hc : ∀ b ∈ before, b.ctx.height.toInt ≤ c.ctx.height.toInt := fun b hb =>
    hcross _ (List.mem_map_of_mem hb) _ (by simp)
  constructor
  · intro d hd
    simp only [List.mem_append, List.mem_singleton] at hd
    rcases hd with (hd | rfl) | rfl
    · exact hpos d (by simp [hd])
    · exact hpos d (by simp)
    · exact hpos c (by simp)
  · simp only [List.append_assoc, List.map_append, List.map_cons, List.map_nil,
      List.singleton_append, List.pairwise_append, List.pairwise_cons]
    refine ⟨hbefore, by simp, fun a ha b hb => ?_⟩
    obtain ⟨d, hd, rfl⟩ := List.mem_map.mp ha
    obtain rfl : b = c.ctx.height.toInt := by simpa using hb
    exact hc d hd

/-- A call that returned nil in the current block is above every failed call that is
early enough. -/
theorem not_justified_of_nil {before : List (RentCall A)} {c : RentCall A} {p : StateRentParams}
    {grace : ℤ} (hnil : ReturnsNil J (run (after J) w before) c key) (hgrace : 0 < grace) :
    ¬Justified J w key (before ++ [c] ++ settingsAt c.ctx [p]) c.ctx.height.toInt grace := by
  rintro ⟨b, f, l, hsplit, hfails, hearly, hlater⟩
  have hlt : f.ctx.height.toInt < c.ctx.height.toInt := by omega
  -- the failed call is neither the setting nor the call that returned nil
  rcases snoc_eq_iff.mp hsplit with ⟨-, -, rfl⟩ | ⟨_, rfl, hbefore⟩
  · obtain ⟨⟨_, _, _, hop⟩, -⟩ := hfails
    cases hop
  rcases snoc_eq_iff.mp hbefore with ⟨-, -, rfl⟩ | ⟨r, rfl, rfl⟩
  · exact lt_irrefl _ hlt
  · exact hlater r c _ (List.append_assoc ..) hlt hnil

/-- After a call in a grace period that had nothing to collect, new parameters can
end the period at once. -/
theorem billed_of_justified (hkey : key ≠ "") (hstart : marker J w key = 0)
    (hordered : Ordered calls) (hjust : EvictionsJustified J w key calls) :
    Along (after J) (BilledInGrace J key) w calls := by
  rw [along_iff]
  intro before c later hcalls
  by_contra hunbilled
  obtain ⟨bank, owner, size, hop, hmarker, hlt, hnot⟩ := not_billedInGrace hunbilled
  obtain ⟨hnil, hkept⟩ := marker_unbilled hop hnot
  obtain ⟨d, hd, hheight⟩ := marker_height hstart hmarker
  have hpos : 0 < (marker J (run (after J) w before) key).toInt := by
    rw [← hheight]
    exact hordered.1 d (by simp [hcalls, hd])
  rw [← hkept, ← run_snoc (after J)] at hmarker hpos hlt
  obtain ⟨⟨t, hevict⟩, hgrace⟩ := check_after_setting c.ctx
    ⟨0, 0, c.ctx.height - marker J (run (after J) w (before ++ [c])) key⟩ hkey hmarker rfl
  rw [← run_snoc (after J)] at hevict hgrace
  have hmax := c.ctx.height.toInt_lt
  rw [toInt_sub_eq (by omega) (by omega)] at hgrace
  refine not_justified_of_nil hnil ?_ (hjust (before ++ [c]) ⟨later, by simp [hcalls]⟩ c.ctx [_]
    (hcalls ▸ hordered).again t hevict)
  simp only [settingsAt, List.map_cons, List.map_nil, hgrace]
  omega

/-- Settings collect nothing. -/
theorem billed_settings {ctx : Ctx A} {settings : List StateRentParams}
    (h : Along (after J) (BilledInGrace J key) w calls) :
    Along (after J) (BilledInGrace J key) w (calls ++ settingsAt ctx settings) := by
  refine along_append.mpr ⟨h, along_iff.mpr fun before c later hsplit => ?_⟩
  have hmem : c ∈ settingsAt ctx settings := by
    rw [hsplit]
    simp
  obtain ⟨p, -, rfl⟩ := List.mem_map.mp hmem
  trivial

theorem justified_of_billed (hstart : marker J w key = 0)
    (hcond : key = "" ∨ Along (after J) (BilledInGrace J key) w calls) :
    EvictionsJustified J w key calls := by
  intro before hpre ctx settings hprefix t hevict
  rw [checkAndEvict_eq] at hevict
  split_ifs at hevict with hkept hempty
  · simp at hevict
  obtain ⟨later, rfl⟩ := hpre
  have hbilled := (along_append.mp (hcond.resolve_left hempty)).1
  obtain ⟨hmarker, hgrace⟩ := not_or.mp hkept
  obtain ⟨b, f, l, hsplit, hf, hheight, hlater⟩ :=
    marker_unbroken hstart (billed_settings hbilled) hmarker
  refine ⟨b, f, l, hsplit, hf, ?_, hlater⟩
  have hmem : f ∈ before ++ settingsAt ctx settings := by
    rw [hsplit]
    simp
  obtain ⟨hpos, hle⟩ := hprefix.of_mem hmem
  have hmax := ctx.height.toInt_lt
  rw [← hheight, Int64.lt_iff_toInt_lt, toInt_sub_eq (by omega) (by omega)] at hgrace
  rw [gracePeriod]
  omega

/-- The evictions of a history are justified as long as no call within a grace
period goes without something to collect, and only then. An empty key is never
evicted. -/
theorem evictions_justified_iff (J : RentCodec) (w : PrivacyState) (key : String)
    (calls : List (RentCall A)) (hstart : getGraceStart J.toRentJSON key w.store = 0)
    (hordered : Ordered calls) :
    EvictionsJustified J w key calls ↔
      key = "" ∨ Along (after J) (BilledInGrace J key) w calls := by
  constructor
  · intro hjust
    exact or_iff_not_imp_left.mpr fun hkey => billed_of_justified hkey hstart hordered hjust
  · exact justified_of_billed hstart

/-- The checks a history makes itself: the key is evicted only after an unbroken
default. -/
theorem own_evictions_justified {before later : List (RentCall A)} {c : RentCall A}
    (hstart : marker J w key = 0) (hordered : Ordered (before ++ c :: later))
    (hbilled : Along (after J) (BilledInGrace J key) w before) (hop : c.op = .checkAndEvict key)
    {t : PrivacyState} (hevict : c.exec J (run (after J) w before) = .ok true t) :
    Justified J w key before c.ctx.height.toInt (gracePeriod J (run (after J) w before)) := by
  obtain ⟨ctx, op⟩ := c
  obtain rfl : op = .checkAndEvict key := hop
  have hjust := justified_of_billed hstart (.inr hbilled) before List.prefix_rfl ctx []
  simp only [settingsAt, List.map_nil, List.append_nil] at hjust
  exact hjust (hordered.of_sublist (by simp)) t hevict

end Runs

section Default
open Devnet

def chargedAtOne : PrivacyState :=
  { fresh with store := fresh.store.set (rentLastChargedKey "commitment/alice") (encodeWord 1) }

/-- Alice holds ten thousand coins. -/
def collectAt (height size : Int64) : RentCall devnet :=
  ⟨blockAt height, .collectRent fresh.bank "commitment/alice" alice size⟩

theorem default_facts :
    ((collectAt 2 21024).exec wordCodec chargedAtOne).returned = none ∧
      ((collectAt 2 21024).exec wordCodec chargedAtOne).panicked = false ∧
      ((collectAt 3 100).exec wordCodec
        (after wordCodec chargedAtOne (collectAt 2 21024))).returned = some false ∧
      (Evictions.checkAndEvict wordCodec.toRentJSON (blockAt 14402) "commitment/alice"
        (run (after wordCodec) chargedAtOne [collectAt 2 21024, collectAt 3 100])).returned =
        some true ∧
      gracePeriod wordCodec
        (run (after wordCodec) chargedAtOne [collectAt 2 21024, collectAt 3 100]) = 14400 ∧
      (getStateRentParams wordCodec.toRentJSON
        (after wordCodec chargedAtOne (collectAt 2 21024)).store).rentDue 21024
        (3 - getRentLastCharged wordCodec.toRentJSON (blockAt 3) "commitment/alice"
          (after wordCodec chargedAtOne (collectAt 2 21024)).store) =
        .ok ⟨"uzytc", .newInt 40000⟩ := by
  decide +kernel

/-- Two calls that fail justify an eviction. -/
theorem two_defaults_justified :
    EvictionsJustified wordCodec chargedAtOne "commitment/alice"
      [collectAt 2 21024, collectAt 3 21024] := by
  obtain ⟨-, -, -, -, -, hdue⟩ := default_facts
  refine (evictions_justified_iff wordCodec chargedAtOne "commitment/alice" _ (by decide +kernel)
    ⟨by decide, by decide⟩).mpr (.inr ⟨?_, ?_, trivial⟩)
  · intro _ hmarker
    exact absurd (by decide +kernel) hmarker
  · intro _ _ _
    refine ⟨by decide +kernel, fun due h => ?_⟩
    obtain rfl := Except.ok.inj (hdue.symm.trans h)
    decide

/-- Alice cannot pay at height 2. The commitment is small at height 3, and the call
returns nil. It is evicted all the same. -/
theorem evicted_after_nil :
    getGraceStart wordCodec.toRentJSON "commitment/alice" chargedAtOne.store = 0 ∧
      Ordered [collectAt 2 21024, collectAt 3 100,
        ⟨blockAt 14402, .checkAndEvict "commitment/alice"⟩] ∧
      (∃ t, Evictions.checkAndEvict wordCodec.toRentJSON (blockAt 14402) "commitment/alice"
        (run (after wordCodec) chargedAtOne [collectAt 2 21024, collectAt 3 100]) = .ok true t) ∧
      ¬Justified wordCodec chargedAtOne "commitment/alice" [collectAt 2 21024, collectAt 3 100]
        14402 (gracePeriod wordCodec
          (run (after wordCodec) chargedAtOne [collectAt 2 21024, collectAt 3 100])) := by
  obtain ⟨-, -, hnil, hevict, hgrace, -⟩ := default_facts
  obtain ⟨t, hnil⟩ := returned_iff.mp hnil
  refine ⟨by decide +kernel, ⟨by decide, by decide⟩, returned_iff.mp hevict, ?_⟩
  rintro ⟨before, f, later, hsplit, hfails, -, hlater⟩
  have hsnoc : [collectAt 2 21024] ++ [collectAt 3 100] = before ++ f :: later := hsplit
  rcases snoc_eq_iff.mp hsnoc with ⟨-, rfl, rfl⟩ | ⟨r, rfl, hfirst⟩
  · obtain ⟨-, e, u, herr⟩ := hfails
    exact absurd (hnil.symm.trans herr) nofun
  · have hsnoc : [] ++ [collectAt 2 21024] = before ++ f :: r := hfirst
    rcases snoc_eq_iff.mp hsnoc with ⟨rfl, rfl, rfl⟩ | ⟨r', -, hnone⟩
    · exact hlater [] (collectAt 3 100) [] rfl (by decide) ⟨⟨_, _, _, rfl⟩, false, t, hnil⟩
    · simp at hnone

end Default

end Zytherion.Evictions
