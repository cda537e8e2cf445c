import Zytherion.StablecoinKeeper
import Zytherion.Median

/-!
# The oracle's keeper

Price entries are stored under the denomination and the height they were
submitted at, `price/<denom>/<height>`; the history of a denomination is whatever
stands under the prefix `price/<denom>/`. The price of a denomination is the
median of its history within a window of blocks. It is cached under
`twap/<denom>`, where the other modules read it. Entries that no window can reach
any more are pruned.

The staking module's validators are part of the state: who is stored, who of
them is bonded, and who is jailed.
-/
namespace Zytherion.OracleKeeper

open GoCall KeyedStore SdkMath Application ChainState StablecoinKeeper

def oracleErr (code : ℕ) (description : String) : Err := .registered "oracle" code description

def errInvalidDenom : Err := oracleErr 1300 "denom not whitelisted"
def errPriceTooOld : Err := oracleErr 1301 "price submission too old"
def errInsufficientSubmissions : Err :=
  oracleErr 1302 "not enough price submissions for valid TWAP"
def errUnauthorizedSubmitter : Err := oracleErr 1303 "submitter is not an active validator"

structure PriceEntry where
  denom : String
  priceUSD : Dec
  submitter : String
  height : Int64
  timestamp : Int64
deriving DecidableEq

structure OracleParams where
  twapWindowBlocks : Int64
  minSubmissions : Int64
  maxPriceAge : Int64
  whitelistedDenoms : List String
deriving DecidableEq, Repr

def defaultOracleParams : OracleParams where
  twapWindowBlocks := 30
  minSubmissions := 2
  maxPriceAge := 5
  whitelistedDenoms := ["ZYTC", "axlUSDC", "mUSDT", "ATOM", "wBTC", "wETH"]

inductive BondStatus where
  | unbonded
  | unbonding
  | bonded
deriving DecidableEq, Repr

structure Validator where
  operator : AccAddress
  status : BondStatus
  jailed : Bool
deriving DecidableEq

/-- The validators the staking module stores, each operator once. -/
structure ValidatorSet where
  validators : List Validator
  unique : (validators.map Validator.operator).Nodup

namespace ValidatorSet

/-- `GetValidator` finds a validator of any status. -/
def getValidator (v : ValidatorSet) (addr : AccAddress) : Option Validator :=
  v.validators.find? fun val => val.operator == addr

/-- The validators `IterateBondedValidatorsByPower` visits. -/
def bonded (v : ValidatorSet) : List Validator :=
  v.validators.filter fun val => val.status == .bonded

end ValidatorSet

/-- The chain's state with the oracle's own stores and the validators. The cache
of prices is in the part the modules share. -/
structure World where
  chain : State
  oracleParams : Option OracleParams
  prices : Store String PriceEntry
  staking : ValidatorSet

abbrev WorldExec (α : Type) : Type := Call World Err α

def onChain {α : Type} (x : Exec α) : WorldExec α :=
  zoom World.chain (fun w s => { w with chain := s }) x

/-- What the parameters read, the defaults when they were never written. -/
def paramsOf (w : World) : OracleParams := w.oracleParams.getD defaultOracleParams

def getOracleParams : WorldExec OracleParams := gets paramsOf

def setOracleParams (params : OracleParams) : WorldExec Unit :=
  modifyStore fun w => { w with oracleParams := some params }

def historyKey (denom : String) : String := "price/" ++ denom ++ "/"

def priceKey (denom : String) (height : Int64) : String := historyKey denom ++ toString height.toInt

def setPrice (entry : PriceEntry) : WorldExec Unit :=
  modifyStore fun w => { w with prices := w.prices.set (priceKey entry.denom entry.height) entry }

/-- Every entry under the prefix of the denomination, at or after a height. -/
def priceHistory (w : World) (denom : String) (fromHeight : Int64) : List PriceEntry :=
  (w.prices.select fun key => (historyKey denom).toList.isPrefixOf key.toList).filter
    fun entry => decide (fromHeight ≤ entry.height)

def getPriceHistory (denom : String) (fromHeight : Int64) : WorldExec (List PriceEntry) :=
  gets fun w => priceHistory w denom fromHeight

/-- Of entries at the same height the first one met stays. -/
def laterPrice (latest : Option PriceEntry) (entry : PriceEntry) : Option PriceEntry :=
  match latest with
  | none => some entry
  | some old => if old.height < entry.height then some entry else some old

def getLatestPrice (w : World) (denom : String) : Option PriceEntry :=
  (w.prices.select fun key => (historyKey denom).toList.isPrefixOf key.toList).foldl laterPrice none

/-- The prices in ascending order. -/
def sortPrices (prices : List Dec) : List Dec := prices.insertionSort fun a b => a.raw ≤ b.raw

/-- The middle one of an odd number, the average of the two middle ones of an
even number. -/
def medianPrice (prices : List Dec) : Checked Dec := do
  let sorted := sortPrices prices
  let n := sorted.length
  if n % 2 == 1 then orPanic sorted[n / 2]? "index out of range"
  else do
    let mid1 ← orPanic sorted[n / 2 - 1]? "index out of range"
    let mid2 ← orPanic sorted[n / 2]? "index out of range"
    let sum ← mid1.add mid2
    sum.quo (Dec.newDecWithPrec 2 0)

/-- The first height of the window that ends at `currentHeight`. -/
def windowStart (params : OracleParams) (currentHeight : Int64) : Int64 :=
  let start := currentHeight - params.twapWindowBlocks
  if start < 0 then 0 else start

section Blocks
variable {A : App} (ctx : Ctx A)

def computeTWAP (denom : String) : WorldExec TWAPData := do
  let params ← getOracleParams
  let start := windowStart params ctx.height
  let entries ← getPriceHistory denom start
  require (!decide ((entries.length : ℤ) < params.minSubmissions.toInt))
    (.wrap ("got " ++ toString entries.length ++ " submissions, need " ++
      toString params.minSubmissions ++ " for denom " ++ denom) errInsufficientSubmissions)
  let median ← medianPrice (entries.map PriceEntry.priceUSD)
  return ⟨denom, median, start, ctx.height, Int64.ofNat entries.length⟩

/-- The cached price is replaced unless there is no new one. -/
def refreshTWAP (denom : String) : WorldExec Unit := do
  let computed ← attempt (computeTWAP ctx denom)
  match computed with
  | some twap => onChain (setTWAP twap)
  | none => pure ()

end Blocks

/-- Entries below the cutoff are deleted; there is no cutoff at or below zero. -/
def pruneOldPrices (currentHeight : Int64) : WorldExec Unit := do
  let params ← getOracleParams
  let cutoff := currentHeight - params.twapWindowBlocks - params.maxPriceAge
  if cutoff ≤ 0 then pure ()
  else modifyStore fun w =>
    { w with prices := w.prices.discard fun entry => decide (entry.height < cutoff) }

/-- `strings.EqualFold` on texts of ASCII characters. -/
def equalFold (a b : String) : Bool := a.toList.map Char.toLower == b.toList.map Char.toLower

/-- An operator of any stored validator passes; the bonded ones are looked at
after that. -/
def isValidatorSubmitter (A : App) (staking : ValidatorSet) (addr : AccAddress) : Bool :=
  (staking.getValidator addr).isSome ||
    staking.bonded.any fun val => equalFold (A.text val.operator) (A.text addr)

section Keys

theorem priceKey_toList (d : String) (height : Int64) : (priceKey d height).toList =
    "price/".toList ++ (d.toList ++ '/' :: (toString height.toInt).toList) := by
  simp [priceKey, historyKey, String.toList_append]

theorem priceKey_inj {d e : String} {h k : Int64} (hkey : priceKey d h = priceKey e k) :
    d = e ∧ h = k := by
  have hl := congrArg String.toList hkey
  rw [priceKey_toList, priceKey_toList, List.append_cancel_left_eq] at hl
  have hr := congrArg List.reverse hl
  simp only [List.reverse_append, List.reverse_cons, List.append_assoc, List.singleton_append] at hr
  obtain ⟨hheight, hdenom⟩ := separated_inj (by simpa using slash_notMem_toString _)
    (by simpa using slash_notMem_toString _) hr
  refine ⟨String.toList_inj.mp (List.reverse_injective hdenom), ?_⟩
  have htext := String.toList_inj.mp (List.reverse_injective hheight)
  exact Int64.toInt_inj.mp (toString_int_inj htext)

/-- A key stands under the prefix of a denomination if it is a key of that
denomination or of one that continues it after a slash. -/
theorem historyKey_isPrefixOf {d e : String} {height : Int64}
    (h : (historyKey d).toList.isPrefixOf (priceKey e height).toList = true) :
    e = d ∨ ∃ rest, e = d ++ "/" ++ rest := by
  obtain ⟨tail, htail⟩ := List.isPrefixOf_iff_prefix.mp h
  have hl : d.toList ++ '/' :: tail = e.toList ++ '/' :: (toString height.toInt).toList := by
    have hkey : (historyKey d).toList = "price/".toList ++ (d.toList ++ ['/']) := by
      simp [historyKey, String.toList_append]
    rw [hkey, priceKey_toList, List.append_assoc, List.append_cancel_left_eq] at htail
    simpa using htail
  rcases List.append_eq_append_iff.mp hl with ⟨xs, he, hrest⟩ | ⟨xs, hd, hrest⟩
  · cases xs with
    | nil => exact .inl (String.toList_inj.mp (by simpa using he))
    | cons x xs =>
        obtain ⟨rfl, -⟩ := List.cons.inj hrest
        refine .inr ⟨String.ofList xs, String.toList_inj.mp ?_⟩
        simpa [String.toList_append] using he
  · cases xs with
    | nil => exact .inl (String.toList_inj.mp (by simpa using hd.symm))
    | cons x xs =>
        have hmem : '/' ∈ (toString height.toInt).toList := by
          rw [(List.cons.inj hrest).2]
          simp
        exact (slash_notMem_toString _ hmem).elim

theorem isPrefixOf_priceKey (d : String) (height : Int64) :
    (historyKey d).toList.isPrefixOf (priceKey d height).toList = true := by
  rw [List.isPrefixOf_iff_prefix, priceKey, String.toList_append]
  exact List.prefix_append ..

end Keys

section Medians
variable {prices : List Dec} {m : Dec}

theorem sortPrices_perm (prices : List Dec) : (sortPrices prices).Perm prices :=
  List.perm_insertionSort _ prices

theorem sortPrices_length (prices : List Dec) : (sortPrices prices).length = prices.length :=
  (sortPrices_perm prices).length_eq

theorem sortPrices_raw_sorted (prices : List Dec) :
    ((sortPrices prices).map Dec.raw).Pairwise (· ≤ ·) := by
  have : Std.Total fun a b : Dec => a.raw ≤ b.raw := ⟨fun a b => le_total a.raw b.raw⟩
  have : IsTrans Dec fun a b => a.raw ≤ b.raw := ⟨fun _ _ _ => le_trans⟩
  exact List.pairwise_map.mpr (List.pairwise_insertionSort _ prices)

/-- Any way of sorting gives this list. -/
theorem eq_sortPrices {sorted : List Dec} (hperm : sorted.Perm prices)
    (hsorted : sorted.Pairwise fun a b => a.raw ≤ b.raw) : sorted = sortPrices prices := by
  refine List.Perm.eq_of_pairwise ?_ hsorted (List.pairwise_map.mp (sortPrices_raw_sorted prices))
    (hperm.trans (sortPrices_perm prices).symm)
  rintro ⟨a⟩ ⟨b⟩ - - hab hba
  exact congrArg Dec.mk (le_antisymm hab hba)

/-- The order in which the entries come does not matter. -/
theorem medianPrice_perm {other : List Dec} (h : prices.Perm other) :
    medianPrice prices = medianPrice other := by
  have hsort : sortPrices prices = sortPrices other :=
    eq_sortPrices ((sortPrices_perm prices).trans h)
      (List.pairwise_map.mp (sortPrices_raw_sorted prices))
  simp only [medianPrice, hsort]

/-- A median is the middle price, or the rounded average of the two middle ones. -/
theorem medianPrice_ok (h : medianPrice prices = .ok m) :
    (prices.length % 2 = 1 ∧ (sortPrices prices)[prices.length / 2]? = some m) ∨
    (prices.length % 2 = 0 ∧ ∃ a b sum,
      (sortPrices prices)[prices.length / 2 - 1]? = some a ∧
      (sortPrices prices)[prices.length / 2]? = some b ∧
      a.add b = .ok sum ∧ sum.quo (.newDecWithPrec 2 0) = .ok m) := by
  simp only [medianPrice, sortPrices_length] at h
  split at h
  · rename_i hodd
    rw [orPanic_ok] at h
    exact .inl ⟨by simpa using hodd, h⟩
  · rename_i hodd
    simp only [checked_bind_ok, orPanic_ok] at h
    obtain ⟨a, ha, b, hb, sum, hsum, hm⟩ := h
    refine .inr ⟨?_, a, b, sum, ha, hb, hsum, hm⟩
    have hne : prices.length % 2 ≠ 1 := by simpa using hodd
    omega

/-- An average of two prices in an interval lies in the interval. -/
theorem average_between {a b sum : Dec} {lo hi : ℤ} (ha : lo ≤ a.raw ∧ a.raw ≤ hi)
    (hb : lo ≤ b.raw ∧ b.raw ≤ hi) (hnonneg : 0 ≤ a.raw + b.raw) (hsum : a.add b = .ok sum)
    (hm : sum.quo (.newDecWithPrec 2 0) = .ok m) : lo ≤ m.raw ∧ m.raw ≤ hi := by
  obtain ⟨hraw, -⟩ := Dec.add_ok.mp hsum
  have htwo : (Dec.newDecWithPrec 2 0).raw = 2 * precision := by decide
  have hE := precision_pos
  refine Dec.quo_between (by omega) (by rw [htwo]; omega) hm ?_ ?_
  · rw [htwo, ← mul_assoc]
    exact mul_le_mul_of_nonneg_right (by omega) hE.le
  · rw [htwo, ← mul_assoc]
    exact mul_le_mul_of_nonneg_right (by omega) hE.le

/-- While fewer than half of the prices lie outside an interval, the median lies
inside. -/
theorem medianPrice_mem_Icc {lo hi : ℤ} (hnonneg : ∀ p ∈ prices, 0 ≤ p.raw)
    (hfew : 2 * prices.countP (fun p => !decide (lo ≤ p.raw ∧ p.raw ≤ hi)) < prices.length)
    (h : medianPrice prices = .ok m) : lo ≤ m.raw ∧ m.raw ≤ hi := by
  have hlen : ((sortPrices prices).map Dec.raw).length = prices.length := by
    rw [List.length_map, sortPrices_length]
  have hcount : ((sortPrices prices).map Dec.raw).countP (fun x => !decide (lo ≤ x ∧ x ≤ hi)) =
      prices.countP fun p => !decide (lo ≤ p.raw ∧ p.raw ≤ hi) := by
    rw [List.countP_map]
    exact (sortPrices_perm prices).countP_eq _
  -- a price at a middle position of the sorted list
  have hmiddle : ∀ i p, (sortPrices prices)[i]? = some p → 2 * i ≤ prices.length →
      prices.length ≤ 2 * (i + 1) → (lo ≤ p.raw ∧ p.raw ≤ hi) ∧ 0 ≤ p.raw := by
    intro i p hp h₁ h₂
    obtain ⟨hi, rfl⟩ := List.getElem?_eq_some_iff.mp hp
    have hmem := Median.middle_mem_Icc (sortPrices_raw_sorted prices)
      (by rw [hcount, hlen]; exact hfew) (by rw [hlen]; exact h₁) (by rw [hlen]; exact h₂)
      (by rw [List.length_map]; exact hi)
    rw [List.getElem_map] at hmem
    exact ⟨hmem, hnonneg _ ((sortPrices_perm prices).mem_iff.mp (List.getElem_mem hi))⟩
  rcases medianPrice_ok h with ⟨hodd, hm⟩ | ⟨heven, a, b, sum, ha, hb, hsum, hm⟩
  · exact (hmiddle _ m hm (by omega) (by omega)).1
  · have hpos : 0 < prices.length := by omega
    obtain ⟨ha', ha₀⟩ := hmiddle _ a ha (by omega) (by omega)
    obtain ⟨hb', hb₀⟩ := hmiddle _ b hb (by omega) (by omega)
    exact average_between ha' hb' (by omega) hsum hm

/-- Two prices whose sum a decimal can hold. -/
def SumFits (a b : Dec) : Prop := a.raw + b.raw < (decBound : ℤ)

theorem average_returns {a b : Dec} (ha : 0 ≤ a.raw) (hb : 0 ≤ b.raw) (hsum : SumFits a b) :
    ∃ sum m, a.add b = .ok sum ∧ sum.quo (.newDecWithPrec 2 0) = .ok m := by
  have hnonneg : 0 ≤ a.raw + b.raw := by omega
  have hlt : a.raw + b.raw < (decBound : ℤ) := hsum
  have hadd : a.add b = .ok ⟨a.raw + b.raw⟩ := Dec.add_ok.mpr ⟨rfl, by omega⟩
  have hprecision : precision ≤ (Dec.newDecWithPrec 2 0).raw := by decide
  obtain ⟨m, hm, -⟩ := Dec.quo_returns (a := ⟨a.raw + b.raw⟩) hnonneg (by decide)
    (mul_le_mul_of_nonneg_left hprecision hnonneg) hlt
  exact ⟨_, m, hadd, hm⟩

/-- Prices of which no two add up past the bound have a median. -/
theorem medianPrice_returns (hne : prices ≠ []) (hnonneg : ∀ p ∈ prices, 0 ≤ p.raw)
    (hpairs : prices.Pairwise SumFits) :
    ∃ m, medianPrice prices = .ok m := by
  have hlen : 0 < prices.length := List.length_pos_iff.mpr hne
  have hget : ∀ i, i < prices.length → ∃ p, (sortPrices prices)[i]? = some p := by
    intro i hi
    rw [← sortPrices_length] at hi
    exact ⟨_, List.getElem?_eq_getElem hi⟩
  simp only [medianPrice, sortPrices_length]
  split
  · obtain ⟨p, hp⟩ := hget (prices.length / 2) (by omega)
    exact ⟨p, by rw [hp]; rfl⟩
  · rename_i hodd
    have heven : prices.length % 2 ≠ 1 := by simpa using hodd
    obtain ⟨a, ha⟩ := hget (prices.length / 2 - 1) (by omega)
    obtain ⟨b, hb⟩ := hget (prices.length / 2) (by omega)
    obtain ⟨hi, rfl⟩ := List.getElem?_eq_some_iff.mp ha
    obtain ⟨hj, rfl⟩ := List.getElem?_eq_some_iff.mp hb
    have hnonneg' : ∀ p ∈ sortPrices prices, 0 ≤ p.raw := fun p hp =>
      hnonneg p ((sortPrices_perm prices).mem_iff.mp hp)
    have hsorted : (sortPrices prices).Pairwise SumFits :=
      ((sortPrices_perm prices).pairwise_iff fun h => by
        rw [SumFits, add_comm]
        exact h).mpr hpairs
    have hsum := List.pairwise_iff_getElem.mp hsorted _ _ hi hj (by omega)
    obtain ⟨sum, m, hadd, hquo⟩ := average_returns (hnonneg' _ (List.getElem_mem hi))
      (hnonneg' _ (List.getElem_mem hj)) hsum
    refine ⟨m, ?_⟩
    simp only [checked_bind_ok, orPanic_ok]
    exact ⟨_, ha, _, hb, sum, hadd, hquo⟩

end Medians

end Zytherion.OracleKeeper
