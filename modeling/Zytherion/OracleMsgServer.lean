import Zytherion.OracleKeeper

/-!
# The oracle's message and its block hooks

A submission names a denomination and a price. It is stored, the cached price of
the denomination is computed anew and old entries are pruned. Every block begins
with new prices for all whitelisted denominations and ends with pruning. An error
of the computation leaves the cached price as it is; a panic passes.
-/
namespace Zytherion.OracleMsgServer

open GoCall KeyedStore SdkMath Application ChainState StablecoinKeeper OracleKeeper

structure MsgSubmitPrice where
  submitter : String
  denom : String
  priceUsd : Option Dec

def nilPrice : String := "invalid memory address or nil pointer dereference"

section Messages
variable (A : App)

def submitterAddress (submitter : String) : WorldExec AccAddress :=
  mapErr (.wrap "invalid submitter address") (ofExcept (A.accAddressFromBech32 submitter))

def MsgSubmitPrice.validateBasic (msg : MsgSubmitPrice) : WorldExec Unit := do
  let _ ← submitterAddress A msg.submitter
  require (msg.denom != "") (.plain "denom cannot be empty")
  require (msg.priceUsd.any fun price => decide (0 < price.raw)) (.plain "price must be positive")

variable {A} (ctx : Ctx A)

/-- The entry an accepted submission stores. -/
def MsgSubmitPrice.entry (msg : MsgSubmitPrice) (price : Dec) : PriceEntry :=
  ⟨msg.denom, price, msg.submitter, ctx.height, ctx.time⟩

/-- A price that is missing never gets here: validation refuses it. -/
def submitPrice (msg : MsgSubmitPrice) : WorldExec Unit := do
  let submitter ← submitterAddress A msg.submitter
  let staking ← gets World.staking
  require (isValidatorSubmitter A staking submitter) errUnauthorizedSubmitter
  let params ← getOracleParams
  require (params.whitelistedDenoms.contains msg.denom) errInvalidDenom
  require (!(decide (params.maxPriceAge < ctx.height) && msg.priceUsd.isNone)) errPriceTooOld
  let price ← orPanic msg.priceUsd nilPrice
  setPrice (msg.entry ctx price)
  refreshTWAP ctx msg.denom
  pruneOldPrices ctx.height

def beginBlock : WorldExec Unit := do
  let params ← getOracleParams
  params.whitelistedDenoms.forM (refreshTWAP ctx)

/-- Validation and the handler, in a block. -/
def MsgSubmitPrice.exec (msg : MsgSubmitPrice) : WorldExec Unit := do
  msg.validateBasic A
  submitPrice ctx msg

def endBlock : WorldExec Unit := pruneOldPrices ctx.height

end Messages

def initGenesis (params : OracleParams) : WorldExec Unit := setOracleParams params

section Laws
variable {A : App} {ctx : Ctx A} {w w' : World} {u : Unit} {d : String}

/-- The entries the price of a denomination is taken from at a height. -/
def windowEntries (w : World) (d : String) (height : Int64) : List PriceEntry :=
  priceHistory w d (windowStart (paramsOf w) height)

/-- There are as many entries as the parameters ask for. -/
def Enough (w : World) (d : String) (height : Int64) : Prop :=
  (paramsOf w).minSubmissions.toInt ≤ (windowEntries w d height).length

/-- The world with another price in the cache. -/
def cached (w : World) (data : TWAPData) : World :=
  { w with chain := { w.chain with twaps := w.chain.twaps.set ("twap/" ++ data.denom) data } }

/-- The price of a denomination in a block, given its median. -/
def twapData (ctx : Ctx A) (w : World) (d : String) (median : Dec) : TWAPData :=
  ⟨d, median, windowStart (paramsOf w) ctx.height, ctx.height,
    Int64.ofNat (windowEntries w d ctx.height).length⟩

theorem computeTWAP_ok {data : TWAPData} : computeTWAP ctx d w = .ok data w' ↔
    Enough w d ctx.height ∧ ∃ median,
      medianPrice ((windowEntries w d ctx.height).map PriceEntry.priceUSD) = .ok median ∧
      data = twapData ctx w d median ∧ w' = w := by
  simp only [computeTWAP, getOracleParams, getPriceHistory, bind_ok, gets_ok, require_ok, liftM_ok,
    pure_ok, Bool.not_eq_true', decide_eq_false_iff_not, not_lt]
  constructor
  · rintro ⟨_, _, ⟨rfl, rfl⟩, _, _, ⟨rfl, rfl⟩, _, _, ⟨henough, rfl⟩, median, _, ⟨hmedian, rfl⟩, rfl,
      rfl⟩
    exact ⟨henough, median, hmedian, rfl, rfl⟩
  · rintro ⟨henough, median, hmedian, rfl, rfl⟩
    exact ⟨_, _, ⟨rfl, rfl⟩, _, _, ⟨rfl, rfl⟩, (), _, ⟨henough, rfl⟩, median, _, ⟨hmedian, rfl⟩, rfl,
      rfl⟩

theorem computeTWAP_err :
    (∃ e, computeTWAP ctx d w = .err e w') ↔ ¬Enough w d ctx.height ∧ w' = w := by
  simp only [computeTWAP, getOracleParams, getPriceHistory, bind_err, gets_err, gets_ok, require_err,
    require_ok, liftM_err, liftM_ok, pure_err, and_false, exists_false, or_false, false_or,
    Bool.not_eq_false', decide_eq_true_eq]
  constructor
  · rintro ⟨_, _, _, ⟨rfl, rfl⟩, _, _, ⟨rfl, rfl⟩, hfew, -, rfl⟩
    exact ⟨not_le.mpr hfew, rfl⟩
  · rintro ⟨hfew, rfl⟩
    exact ⟨_, _, _, ⟨rfl, rfl⟩, _, _, ⟨rfl, rfl⟩, not_le.mp hfew, rfl, rfl⟩

/-- What refreshing the price of a denomination does. -/
inductive Refreshed (ctx : Ctx A) (d : String) (w : World) : World → Prop
  | skipped (few : ¬Enough w d ctx.height) : Refreshed ctx d w w
  | replaced (enough : Enough w d ctx.height) (median : Dec)
      (computed : medianPrice ((windowEntries w d ctx.height).map PriceEntry.priceUSD) = .ok median) :
      Refreshed ctx d w (cached w (twapData ctx w d median))

theorem refreshTWAP_ok : refreshTWAP ctx d w = .ok u w' ↔ Refreshed ctx d w w' := by
  simp only [refreshTWAP, bind_ok, attempt_ok]
  constructor
  · rintro ⟨_, _, ⟨data, rfl, hdata⟩ | ⟨rfl, herr⟩, hrest⟩
    · obtain ⟨henough, median, hmedian, rfl, rfl⟩ := computeTWAP_ok.mp hdata
      simp only [onChain, setTWAP, zoom_ok, modifyStore_ok] at hrest
      obtain ⟨_, rfl, rfl⟩ := hrest
      exact .replaced henough median hmedian
    · obtain ⟨hfew, rfl⟩ := computeTWAP_err.mp herr
      obtain ⟨-, rfl⟩ := (pure_ok _ _).mp hrest
      exact .skipped hfew
  · rintro (hfew | ⟨henough, median, hmedian⟩)
    · exact ⟨none, w, .inr ⟨rfl, computeTWAP_err.mpr ⟨hfew, rfl⟩⟩, rfl⟩
    · exact ⟨some _, w, .inl ⟨_, rfl, computeTWAP_ok.mpr ⟨henough, median, hmedian, rfl, rfl⟩⟩, rfl⟩

/-- Nothing but cached prices differs. -/
def CacheOnly (w w' : World) : Prop :=
  w' = { w with chain := { w.chain with twaps := w'.chain.twaps } }

namespace CacheOnly

theorem refl (w : World) : CacheOnly w w := rfl

theorem trans {w₁ : World} (h₁ : CacheOnly w w₁) (h₂ : CacheOnly w₁ w') : CacheOnly w w' := by
  rw [CacheOnly, h₂, h₁]

theorem prices (h : CacheOnly w w') : w'.prices = w.prices := by rw [h]

theorem paramsOf (h : CacheOnly w w') : OracleKeeper.paramsOf w' = OracleKeeper.paramsOf w := by
  rw [h]
  rfl

theorem windowEntries (h : CacheOnly w w') (d : String) (height : Int64) :
    OracleMsgServer.windowEntries w' d height = OracleMsgServer.windowEntries w d height := by
  rw [h]
  rfl

theorem enough (h : CacheOnly w w') (d : String) (height : Int64) :
    Enough w' d height ↔ Enough w d height := by
  rw [Enough, Enough, h.windowEntries, h.paramsOf]

theorem twapData (h : CacheOnly w w') (d : String) (median : Dec) :
    OracleMsgServer.twapData ctx w' d median = OracleMsgServer.twapData ctx w d median := by
  rw [OracleMsgServer.twapData, h.windowEntries, h.paramsOf]
  rfl

end CacheOnly

/-- The price of a denomination computed from a world is the one in a cache. -/
def Current (ctx : Ctx A) (w : World) (twaps : Store String TWAPData) (d : String) : Prop :=
  ∃ median, medianPrice ((windowEntries w d ctx.height).map PriceEntry.priceUSD) = .ok median ∧
    twaps.get ("twap/" ++ d) = some (twapData ctx w d median)

theorem CacheOnly.current (h : CacheOnly w w') (twaps : Store String TWAPData) (d : String) :
    Current ctx w' twaps d ↔ Current ctx w twaps d := by
  simp only [Current, h.windowEntries, h.twapData]

theorem twapKey_inj {d e : String} (h : "twap/" ++ d = "twap/" ++ e) : d = e :=
  String.append_right_inj _ |>.mp h

namespace Refreshed

theorem cacheOnly (h : Refreshed ctx d w w') : CacheOnly w w' := by
  cases h with
  | skipped _ => exact .refl w
  | replaced _ _ _ => rfl

theorem current (h : Refreshed ctx d w w') (henough : Enough w d ctx.height) :
    Current ctx w w'.chain.twaps d := by
  cases h with
  | skipped hfew => exact (hfew henough).elim
  | replaced _ median hmedian => exact ⟨median, hmedian, Store.get_set_self ..⟩

theorem get_ne (h : Refreshed ctx d w w') {e : String} (hne : e ≠ d) :
    w'.chain.twaps.get ("twap/" ++ e) = w.chain.twaps.get ("twap/" ++ e) := by
  cases h with
  | skipped _ => rfl
  | replaced _ _ _ => exact Store.get_set_ne _ _ fun hkey => hne (twapKey_inj hkey)

end Refreshed

/-- Refreshing one denomination after the other: each of them is current where
its entries suffice, the others keep what they had. -/
theorem refreshAll_ok {ds : List String} (h : List.forM ds (refreshTWAP ctx) w = .ok u w') :
    CacheOnly w w' ∧ (∀ d ∈ ds, Enough w d ctx.height → Current ctx w w'.chain.twaps d) ∧
      ∀ d ∉ ds, w'.chain.twaps.get ("twap/" ++ d) = w.chain.twaps.get ("twap/" ++ d) := by
  induction ds generalizing w with
  | nil =>
      obtain ⟨-, rfl⟩ := (pure_ok _ _).mp h
      exact ⟨.refl w, by simp, fun _ _ => rfl⟩
  | cons e ds ih =>
      obtain ⟨_, w₁, he, hrest⟩ := (bind_ok (refreshTWAP ctx e) _).mp h
      have hfirst := refreshTWAP_ok.mp he
      obtain ⟨honly, hcurrent, hkept⟩ := ih hrest
      have hcache := hfirst.cacheOnly
      refine ⟨hcache.trans honly, ?_, ?_⟩
      · intro d hd henough
        by_cases hmem : d ∈ ds
        · exact (hcache.current _ d).mp (hcurrent d hmem ((hcache.enough d _).mpr henough))
        · obtain rfl : d = e := by simpa [hmem] using hd
          obtain ⟨median, hmedian, hget⟩ := hfirst.current henough
          exact ⟨median, hmedian, (hkept d hmem).trans hget⟩
      · intro d hd
        rw [List.mem_cons, not_or] at hd
        exact (hkept d hd.2).trans (hfirst.get_ne hd.1)

/-- A loop over denominations returns if every median it takes exists. -/
theorem refreshAll_returns {ds : List String} (hmedian : ∀ d ∈ ds, Enough w d ctx.height →
      ∃ m, medianPrice ((windowEntries w d ctx.height).map PriceEntry.priceUSD) = .ok m) :
    ∃ w', List.forM ds (refreshTWAP ctx) w = .ok () w' := by
  induction ds generalizing w with
  | nil => exact ⟨w, rfl⟩
  | cons e ds ih =>
      obtain ⟨w₁, hfirst⟩ : ∃ w₁, Refreshed ctx e w w₁ := by
        by_cases henough : Enough w e ctx.height
        · obtain ⟨m, hm⟩ := hmedian e (by simp) henough
          exact ⟨_, .replaced henough m hm⟩
        · exact ⟨w, .skipped henough⟩
      have hcache := hfirst.cacheOnly
      obtain ⟨w', hrest⟩ := ih (w := w₁) fun d hd henough => by
        rw [hcache.windowEntries]
        exact hmedian d (by simp [hd]) ((hcache.enough d _).mp henough)
      exact ⟨w', (bind_ok _ _).mpr ⟨(), w₁, refreshTWAP_ok.mpr hfirst, hrest⟩⟩

theorem beginBlock_ok : beginBlock ctx w = .ok u w' ↔
    List.forM (paramsOf w).whitelistedDenoms (refreshTWAP ctx) w = .ok u w' := by
  simp only [beginBlock, getOracleParams, bind_ok, gets_ok]
  constructor
  · rintro ⟨_, _, ⟨rfl, rfl⟩, h⟩
    exact h
  · intro h
    exact ⟨_, _, ⟨rfl, rfl⟩, h⟩

/-- The height below which entries are deleted. -/
def cutoff (params : OracleParams) (height : Int64) : Int64 :=
  height - params.twapWindowBlocks - params.maxPriceAge

/-- The world without the entries below the cutoff. -/
def pruned (w : World) (height : Int64) : World :=
  if cutoff (paramsOf w) height ≤ 0 then w
  else { w with
    prices := w.prices.discard fun entry => decide (entry.height < cutoff (paramsOf w) height) }

theorem pruneOldPrices_eq (w : World) (height : Int64) :
    pruneOldPrices height w = .ok () (pruned w height) := by
  have heq : pruneOldPrices height w = (if cutoff (paramsOf w) height ≤ 0 then pure ()
      else modifyStore fun w' : World => { w' with
        prices := w'.prices.discard fun entry =>
          decide (entry.height < cutoff (paramsOf w) height) } : WorldExec Unit) w := rfl
  rw [heq, pruned]
  split_ifs <;> rfl

theorem pruned_eq (w : World) (height : Int64) :
    pruned w height = { w with prices := (pruned w height).prices } := by
  unfold pruned
  split_ifs <;> rfl

theorem paramsOf_pruned (w : World) (height : Int64) : paramsOf (pruned w height) = paramsOf w := by
  rw [pruned_eq]
  rfl

/-- The entries pruning leaves. -/
def retained (params : OracleParams) (height : Int64) (entry : PriceEntry) : Bool :=
  decide (cutoff params height ≤ 0) || !decide (entry.height < cutoff params height)

theorem get_pruned (w : World) (height : Int64) (k : String) :
    (pruned w height).prices.get k = (w.prices.get k).filter (retained (paramsOf w) height) := by
  unfold pruned
  split_ifs with h
  · cases w.prices.get k <;> simp [retained, h, Option.filter]
  · rw [Store.get_discard]
    congr 1
    funext entry
    simp [retained, h]

/-- The world with one more entry. -/
def stored (w : World) (entry : PriceEntry) : World :=
  { w with prices := w.prices.set (priceKey entry.denom entry.height) entry }

variable (ctx) in
/-- What an accepted submission did. -/
structure Accepted (msg : MsgSubmitPrice) (submitter : AccAddress) (price : Dec) (w w' : World) :
    Prop where
  address : A.accAddressFromBech32 msg.submitter = .ok submitter
  validator : isValidatorSubmitter A w.staking submitter = true
  whitelisted : msg.denom ∈ (paramsOf w).whitelistedDenoms
  price_eq : msg.priceUsd = some price
  positive : 0 < price.raw
  result : ∃ m, Refreshed ctx msg.denom (stored w (msg.entry ctx price)) m ∧
    w' = pruned m ctx.height

namespace Accepted
variable {msg : MsgSubmitPrice} {submitter : AccAddress} {price : Dec}

theorem get_prices (h : Accepted ctx msg submitter price w w') (k : String) :
    w'.prices.get k = (if k = priceKey msg.denom ctx.height then some (msg.entry ctx price)
      else w.prices.get k).filter (retained (OracleKeeper.paramsOf w) ctx.height) := by
  obtain ⟨m, hm, rfl⟩ := h.result
  rw [get_pruned, hm.cacheOnly.paramsOf, hm.cacheOnly.prices, stored, Store.get_set]
  rfl

theorem get_twaps_ne (h : Accepted ctx msg submitter price w w') {d : String} (hd : d ≠ msg.denom) :
    w'.chain.twaps.get ("twap/" ++ d) = w.chain.twaps.get ("twap/" ++ d) := by
  obtain ⟨m, hm, rfl⟩ := h.result
  rw [pruned_eq, hm.get_ne hd]
  rfl

end Accepted

/-- A submission is accepted exactly when it names a denomination and everything
that is checked holds. -/
theorem exec_ok_iff {msg : MsgSubmitPrice} : msg.exec ctx w = .ok u w' ↔
    msg.denom ≠ "" ∧ ∃ submitter price, Accepted ctx msg submitter price w w' := by
  simp only [MsgSubmitPrice.exec, MsgSubmitPrice.validateBasic, submitPrice, submitterAddress,
    getOracleParams, setPrice, bind_ok, mapErr_ok, ofExcept_ok, require_ok, gets_ok, liftM_ok,
    orPanic_ok, modifyStore_ok, refreshTWAP_ok, pruneOldPrices_eq, List.contains_iff_mem,
    bne_iff_ne]
  constructor
  · rintro ⟨_, _, ⟨_, _, ⟨-, rfl⟩, _, _, ⟨hdenom, rfl⟩, hpositive, rfl⟩, submitter, _,
      ⟨haddress, rfl⟩, _, _, ⟨rfl, rfl⟩, _, _, ⟨hvalidator, rfl⟩, _, _, ⟨rfl, rfl⟩, _, _,
      ⟨hwhite, rfl⟩, _, _, ⟨-, rfl⟩, price, _, ⟨hprice, rfl⟩, _, _, rfl, _, m, hrefreshed, hpruned⟩
    refine ⟨hdenom, submitter, price, haddress, hvalidator, hwhite, hprice, ?_, m, hrefreshed, ?_⟩
    · simpa [hprice] using hpositive
    · injection hpruned with _ h
      exact h.symm
  · rintro ⟨hdenom, submitter, price, haddress, hvalidator, hwhite, hprice, hpositive, m, hrefreshed,
      rfl⟩
    refine ⟨(), w, ⟨submitter, w, ⟨haddress, rfl⟩, (), w, ⟨hdenom, rfl⟩, ?_, rfl⟩, submitter, w,
      ⟨haddress, rfl⟩, w.staking, w, ⟨rfl, rfl⟩, (), w, ⟨hvalidator, rfl⟩, _, w, ⟨rfl, rfl⟩, (), w,
      ⟨hwhite, rfl⟩, (), w, ⟨by simp [hprice], rfl⟩, price, w, ⟨hprice, rfl⟩, (), _, rfl, (), m,
      hrefreshed, rfl⟩
    simpa [hprice] using hpositive

theorem exec_ok {msg : MsgSubmitPrice} (h : msg.exec ctx w = .ok u w') :
    ∃ submitter price, Accepted ctx msg submitter price w w' := (exec_ok_iff.mp h).2

end Laws

end Zytherion.OracleMsgServer
