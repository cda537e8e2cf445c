import Zytherion.Commitments

/-!
# State rent

`CollectRent` charges an owner for the blocks since the commitment was last
charged, burns what it took and records the height. A commitment that was never
charged has no record, and `getRentLastCharged` then answers with the height of
the call. No block has passed since, so the call returns before it writes the
record: the next call finds none either, and so does every one after it.
-/
namespace Zytherion.StateRent

open GoCall KeyedStore SdkMath Application ChainState Bank ByteStrings TfheSubmit Commitments

def stateRentDenom : String := "uzytc"

structure StateRentParams where
  rentRatePerBytePerBlock : Int64
  maxFreeSizeBytes : Int64
  gracePeriodBlocks : Int64
deriving DecidableEq

def defaultStateRentParams : StateRentParams where
  rentRatePerBytePerBlock := 1
  maxFreeSizeBytes := 1024
  gracePeriodBlocks := 14400

def newInt64Coin (denom : String) (amount : Int64) : Checked Coin := newCoin denom (.newInt amount)

def StateRentParams.rentDue (p : StateRentParams) (sizeBytes blocks : Int64) : Checked Coin :=
  let billableBytes := sizeBytes - p.maxFreeSizeBytes
  if billableBytes ≤ 0 ∨ blocks ≤ 0 then newInt64Coin stateRentDenom 0
  else newInt64Coin stateRentDenom (billableBytes * p.rentRatePerBytePerBlock * blocks)

/-- The JSON form of heights and parameters. -/
structure RentJSON where
  marshalHeight : Int64 → List UInt8
  unmarshalHeight : List UInt8 → Option Int64
  unmarshalParams : List UInt8 → Option StateRentParams

/-- The JSON encoding in both directions. -/
structure RentCodec extends RentJSON where
  marshalParams : StateRentParams → List UInt8
  unmarshal_marshalHeight : ∀ h, unmarshalHeight (marshalHeight h) = some h
  unmarshal_marshalParams : ∀ p, unmarshalParams (marshalParams p) = some p

def stateRentParamsKey : List UInt8 := utf8 "state_rent_params"
def rentLastChargedKey (commitmentKey : String) : List UInt8 := utf8 ("rent_last/" ++ commitmentKey)
def rentGraceStartKey (commitmentKey : String) : List UInt8 := utf8 ("rent_grace/" ++ commitmentKey)

section Keeper
variable {A : App} (J : RentJSON) (ctx : Ctx A) (commitmentKey : String)

def getStateRentParams (s : KVStore) : StateRentParams :=
  match s.get stateRentParamsKey with
  | none => defaultStateRentParams
  | some bz => (J.unmarshalParams bz).getD defaultStateRentParams

def getRentLastCharged (s : KVStore) : Int64 :=
  match s.get (rentLastChargedKey commitmentKey) with
  | none => ctx.height
  | some bz => (J.unmarshalHeight bz).getD ctx.height

def setRentLastCharged (height : Int64) : Handler Unit :=
  onStore (modifyStore fun s => s.set (rentLastChargedKey commitmentKey) (J.marshalHeight height))

/-- Zero stands for no grace period. -/
def getGraceStart (s : KVStore) : Int64 :=
  match s.get (rentGraceStartKey commitmentKey) with
  | none => 0
  | some bz => (J.unmarshalHeight bz).getD 0

def setGraceStart (height : Int64) : Handler Unit :=
  onStore (modifyStore fun s => s.set (rentGraceStartKey commitmentKey) (J.marshalHeight height))

def clearGracePeriod : Handler Unit :=
  onStore (modifyStore fun s => s.delete (rentGraceStartKey commitmentKey))

def handleRentDefault (currentHeight : Int64) : Handler Unit := do
  let graceStart ← gets fun w => getGraceStart J commitmentKey w.store
  if graceStart = 0 then setGraceStart J commitmentKey currentHeight

/-- The part of `CollectRent` that follows once there is rent to collect. -/
def chargeRent (owner : AccAddress) (rentDue : Coin) : Handler Unit := do
  let coins ← newCoins [rentDue]
  fun w =>
    match onBank (sendCoinsFromAccountToModule ctx owner moduleName coins) w with
    | .panic r => .panic r
    | .err e w' =>
        (do handleRentDefault J commitmentKey ctx.height
            require false
              (.wrap ("privacy: rent collection failed for " ++ commitmentKey) e)) w'
    | .ok _ w' =>
        (do ignoreErr (onBank (burnCoins ctx moduleName coins))
            setRentLastCharged J commitmentKey ctx.height
            clearGracePeriod commitmentKey) w'

def collectRent (owner : AccAddress) (sizeBytes : Int64) : Handler Unit := do
  let params ← gets fun w => getStateRentParams J w.store
  let lastCharged ← gets fun w => getRentLastCharged J ctx commitmentKey w.store
  let blocksSinceCharge := ctx.height - lastCharged
  if blocksSinceCharge ≤ 0 then return ()
  else
    let rentDue ← params.rentDue sizeBytes blocksSinceCharge
    if rentDue.amount.isZero then setRentLastCharged J commitmentKey ctx.height
    else chargeRent J ctx commitmentKey owner rentDue

/-- `CollectRent` for one commitment at the given blocks, as long as it returns nil. -/
def collectAll (blocks : List (Ctx A)) (owner : AccAddress) (sizeBytes : Int64) : Handler Unit :=
  blocks.forM fun ctx => collectRent J ctx commitmentKey owner sizeBytes

end Keeper

section Calls
variable {A : App} {J : RentJSON} {commitmentKey : String} {w : PrivacyState}

/-- The first call at a commitment does nothing at all. -/
theorem collectRent_first (ctx : Ctx A) (owner : AccAddress) (sizeBytes : Int64)
    (hnew : w.store.get (rentLastChargedKey commitmentKey) = none) :
    collectRent J ctx commitmentKey owner sizeBytes w = .ok () w := by
  have hlast : getRentLastCharged J ctx commitmentKey w.store = ctx.height := by
    rw [getRentLastCharged, hnew]
  have hblocks : ctx.height - getRentLastCharged J ctx commitmentKey w.store ≤ 0 := by
    rw [hlast, Int64.sub_self]
    decide
  simp only [collectRent, bind_ok, gets_ok]
  exact ⟨_, w, ⟨rfl, rfl⟩, _, w, ⟨rfl, rfl⟩, by rw [if_pos hblocks]; rfl⟩

theorem collectAll_first (blocks : List (Ctx A)) (owner : AccAddress) (sizeBytes : Int64)
    (hnew : w.store.get (rentLastChargedKey commitmentKey) = none) :
    collectAll J commitmentKey blocks owner sizeBytes w = .ok () w := by
  induction blocks with
  | nil => rfl
  | cons ctx blocks ih =>
      exact (bind_ok _ _).mpr ⟨(), w, collectRent_first ctx owner sizeBytes hnew, ih⟩

end Calls

/-- The number is that of a 64-bit integer. -/
def Fits (n : ℤ) : Prop := -2 ^ 63 ≤ n ∧ n < 2 ^ 63

instance (n : ℤ) : Decidable (Fits n) := inferInstanceAs (Decidable (_ ∧ _))

theorem bmod_of_fits {n : ℤ} (h : Fits n) : n.bmod (2 ^ 64) = n := by
  obtain ⟨hlow, hhigh⟩ := h
  exact Int.bmod_eq_of_le (by omega) (by omega)

theorem mul_mul_toInt {a b c : Int64} (h : Fits (a.toInt * b.toInt * c.toInt)) :
    (a * b * c).toInt = a.toInt * b.toInt * c.toInt := by
  rw [Int64.toInt_mul, Int64.toInt_mul, Int.bmod_mul_bmod, bmod_of_fits h]

theorem newInt64Coin_ok {denom : String} {amount : Int64} {c : Coin} :
    newInt64Coin denom amount = .ok c ↔
      validateDenom denom = true ∧ 0 ≤ amount.toInt ∧ c = ⟨denom, .newInt amount⟩ := by
  simp only [newInt64Coin, newCoin, checked_bind_ok, panicUnless_ok, exists_const, pure,
    Except.pure, Except.ok.injEq, Bool.not_eq_true', SdkInt.isNegative_eq_false,
    SdkInt.newInt_val]
  exact and_congr_right' (and_congr_right' eq_comm)

/-- Nothing is due exactly in the free tier, at rate zero, and when no block passed. -/
theorem rentDue_zero_iff {p : StateRentParams} {size blocks : Int64}
    (hbytes : Fits (size.toInt - p.maxFreeSizeBytes.toInt))
    (hrent : Fits ((size.toInt - p.maxFreeSizeBytes.toInt) * p.rentRatePerBytePerBlock.toInt *
      blocks.toInt)) :
    (∃ due, p.rentDue size blocks = .ok due ∧ due.amount.val = 0) ↔
      size ≤ p.maxFreeSizeBytes ∨ p.rentRatePerBytePerBlock = 0 ∨ blocks ≤ 0 := by
  have hsub := toInt_sub_eq hbytes.1 hbytes.2
  rw [← hsub] at hrent
  have hmul := mul_mul_toInt hrent
  have hfree : size - p.maxFreeSizeBytes ≤ 0 ↔ size ≤ p.maxFreeSizeBytes := by
    rw [Int64.le_iff_toInt_le, Int64.le_iff_toInt_le, hsub, Int64.toInt_zero]
    omega
  have hdenom : validateDenom stateRentDenom = true := by decide
  unfold StateRentParams.rentDue
  by_cases hnone : size - p.maxFreeSizeBytes ≤ 0 ∨ blocks ≤ 0
  · simp only [if_pos hnone, newInt64Coin_ok]
    refine ⟨fun _ => ?_, fun _ => ⟨_, ⟨hdenom, le_refl _, rfl⟩, rfl⟩⟩
    rcases hnone with h | h
    · exact .inl (hfree.mp h)
    · exact .inr (.inr h)
  · simp only [if_neg hnone, newInt64Coin_ok]
    obtain ⟨hbillable, hblocks⟩ := not_or.mp hnone
    have hb : (size - p.maxFreeSizeBytes).toInt ≠ 0 := by
      rw [Int64.le_iff_toInt_le, Int64.toInt_zero] at hbillable
      omega
    have hk : blocks.toInt ≠ 0 := by
      rw [Int64.le_iff_toInt_le, Int64.toInt_zero] at hblocks
      omega
    constructor
    · rintro ⟨_, ⟨-, -, rfl⟩, hzero⟩
      rw [SdkInt.newInt_val, hmul, mul_eq_zero, mul_eq_zero] at hzero
      rcases hzero with (h | h) | h
      · exact (hb h).elim
      · exact .inr (.inl (Int64.toInt_inj.mp (h.trans Int64.toInt_zero.symm)))
      · exact (hk h).elim
    · rintro (h | h | h)
      · exact (hbillable (hfree.mpr h)).elim
      · refine ⟨_, ⟨hdenom, ?_, rfl⟩, ?_⟩
        · simp [h]
        · simp [h]
      · exact (hblocks h).elim

/-- The height of the last of the calls that start with one at `first`. -/
def lastHeight {A : App} (first : Ctx A) (later : List (Ctx A)) : Int64 :=
  (later.getLastD first).height

/-- Heights that increase from call to call. -/
def Increasing {A : App} (blocks : List (Ctx A)) : Prop :=
  (blocks.map fun ctx => ctx.height.toInt).Pairwise (· < ·)

theorem lastHeight_pos_iff {A : App} {first : Ctx A} {later : List (Ctx A)}
    (hinc : Increasing (first :: later)) : first.height.toInt < (lastHeight first later).toInt ↔
      later ≠ [] := by
  cases later with
  | nil => simp [lastHeight]
  | cons ctx later =>
      refine iff_of_true ?_ (by simp)
      have hmem : ((ctx :: later).getLastD first) ∈ ctx :: later := by
        rw [List.getLastD_cons]
        exact List.getLastD_mem_cons
      exact List.rel_of_pairwise_cons hinc (List.mem_map_of_mem hmem)

/-- Rent taken and burned over the calls is the rent due from the first to the last
of them only if that is none: nothing is ever charged at a commitment without a
record. -/
theorem rent_collected_iff {A : App} (J : RentJSON) (first : Ctx A) (later : List (Ctx A))
    (commitmentKey : String) (owner : AccAddress) (size : Int64) (w : PrivacyState)
    (hnew : w.store.get (rentLastChargedKey commitmentKey) = none)
    (hinc : Increasing (first :: later))
    (hheights : Fits ((lastHeight first later).toInt - first.height.toInt))
    (hbytes : Fits (size.toInt - (getStateRentParams J w.store).maxFreeSizeBytes.toInt))
    (hrent : Fits ((size.toInt - (getStateRentParams J w.store).maxFreeSizeBytes.toInt) *
      (getStateRentParams J w.store).rentRatePerBytePerBlock.toInt *
      ((lastHeight first later).toInt - first.height.toInt))) :
    (∃ w' due, collectAll J commitmentKey (first :: later) owner size w = .ok () w' ∧
      (getStateRentParams J w.store).rentDue size (lastHeight first later - first.height) =
        .ok due ∧
      w.bank.held stateRentDenom owner - w'.bank.held stateRentDenom owner = due.amount.val ∧
      (w.bank.supply stateRentDenom).val - (w'.bank.supply stateRentDenom).val = due.amount.val) ↔
    size ≤ (getStateRentParams J w.store).maxFreeSizeBytes ∨
      (getStateRentParams J w.store).rentRatePerBytePerBlock = 0 ∨ later = [] := by
  have hcalls := collectAll_first (J := J) (first :: later) owner size hnew
  have hsub := toInt_sub_eq hheights.1 hheights.2
  rw [← hsub] at hrent
  have hblocks : lastHeight first later - first.height ≤ 0 ↔ later = [] := by
    rw [Int64.le_iff_toInt_le, hsub, Int64.toInt_zero, ← not_iff_not, ← ne_eq,
      ← lastHeight_pos_iff hinc]
    omega
  rw [← hblocks, ← rentDue_zero_iff hbytes hrent]
  constructor
  · rintro ⟨w', due, hw', hdue, hheld, -⟩
    obtain rfl : w = w' := by
      rw [hcalls] at hw'
      exact (Outcome.ok.injEq .. ▸ hw').2
    exact ⟨due, hdue, by rw [← hheld, sub_self]⟩
  · rintro ⟨due, hdue, hzero⟩
    exact ⟨w, due, hcalls, hdue, by rw [hzero, sub_self], by rw [hzero, sub_self]⟩

/-! Two calls at neighbouring heights. -/

section Calls
open Devnet

def encodeWord (n : Int64) : List UInt8 := bigEndian 8 n.toUInt64.toNat

def decodeWord (bz : List UInt8) : Int64 := Int64.ofNat (bigEndianValue bz)

theorem decode_encodeWord (n : Int64) : decodeWord (encodeWord n) = n := by
  have hlt : n.toUInt64.toNat < 256 ^ 8 := n.toUInt64.toNat_lt
  rw [decodeWord, encodeWord, bigEndianValue_bigEndian hlt]
  apply Int64.toBitVec_inj.mp
  simp [Int64.ofNat]

def encodeParams (p : StateRentParams) : List UInt8 :=
  encodeWord p.rentRatePerBytePerBlock ++ encodeWord p.maxFreeSizeBytes ++
    encodeWord p.gracePeriodBlocks

def decodeParams (bz : List UInt8) : StateRentParams :=
  ⟨decodeWord (bz.take 8), decodeWord ((bz.drop 8).take 8), decodeWord (bz.drop 16)⟩

theorem encodeWord_length (n : Int64) : (encodeWord n).length = 8 := bigEndian_length ..

theorem decode_encodeParams (p : StateRentParams) : decodeParams (encodeParams p) = p := by
  have hdrop : (encodeParams p).drop 8 =
      encodeWord p.maxFreeSizeBytes ++ encodeWord p.gracePeriodBlocks := by
    rw [encodeParams, List.append_assoc, List.drop_left' (encodeWord_length _)]
  have hlast : (encodeParams p).drop 16 = encodeWord p.gracePeriodBlocks := by
    rw [encodeParams, List.drop_left' (by simp [encodeWord_length])]
  rw [decodeParams, hdrop, hlast, encodeParams, List.append_assoc,
    List.take_left' (encodeWord_length _), List.take_left' (encodeWord_length _)]
  simp [decode_encodeWord]

/-- Records of eight bytes a number. -/
def wordCodec : RentCodec where
  marshalHeight := encodeWord
  unmarshalHeight bz := some (decodeWord bz)
  unmarshalParams bz := some (decodeParams bz)
  marshalParams := encodeParams
  unmarshal_marshalHeight h := congrArg some (decode_encodeWord h)
  unmarshal_marshalParams p := congrArg some (decode_encodeParams p)

theorem second_call_charges_nothing :
    (getStateRentParams wordCodec.toRentJSON fresh.store).rentDue 1025 (2 - 1) =
        .ok ⟨"uzytc", .newInt 1⟩ ∧
      fresh.bank.held "uzytc" alice = 10000 ∧
      collectAll wordCodec.toRentJSON "commitment/alice" [blockAt 1, blockAt 2] alice 1025 fresh =
        .ok () fresh :=
  ⟨by decide +kernel, by decide +kernel, collectAll_first _ alice 1025 rfl⟩

theorem free_tier_collected : ∃ w' due,
    collectAll wordCodec.toRentJSON "commitment/alice" [blockAt 1, blockAt 2] alice 1024 fresh =
      .ok () w' ∧
    (getStateRentParams wordCodec.toRentJSON fresh.store).rentDue 1024
      (lastHeight (blockAt 1) [blockAt 2] - (blockAt 1).height) = .ok due ∧
    fresh.bank.held stateRentDenom alice - w'.bank.held stateRentDenom alice = due.amount.val ∧
    (fresh.bank.supply stateRentDenom).val - (w'.bank.supply stateRentDenom).val =
      due.amount.val :=
  (rent_collected_iff wordCodec.toRentJSON (blockAt 1) [blockAt 2] "commitment/alice" alice 1024
    fresh rfl (by unfold Increasing; decide) (by decide) (by decide) (by decide)).mpr
      (.inl (by decide))

end Calls

end Zytherion.StateRent
