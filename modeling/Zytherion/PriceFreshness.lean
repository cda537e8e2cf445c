import Zytherion.PriceLog

/-!
# The prices a mint finds in the cache

A refresh leaves the cached price of a denomination alone when too few entries
are left in the window, and a reader of the cache does not look at its age. So a
mint may use a price from any time in the past. The price is fresh as long as the
store holds enough entries for the denomination itself: then the refresh at the
beginning of the block replaced it, and so did every submission since.

Under default genesis a mint finds no price at all. The oracle's whitelist has
the base denominations of the collateral assets, `ZYTC` or `ATOM`, while a mint
asks for the name the asset has on this chain, `uzytc` or `ibc/ATOM`.
-/
namespace Zytherion.PriceFreshness

open GoCall KeyedStore SdkMath Application ChainState Bank StablecoinKeeper StablecoinMsgServer
open ZytdMessages OracleKeeper OracleMsgServer OracleChain PriceLog

/-- The entries within the window that are for the denomination itself. -/
def ownEntries (w : World) (d : String) (h : Int64) : List PriceEntry :=
  (windowEntries w d h).filter fun e => decide (e.denom = d)

/-- The denomination has as many entries of its own as a price needs. -/
def Supplied (w : World) (d : String) (h : Int64) : Prop :=
  (paramsOf w).minSubmissions.toInt ≤ (ownEntries w d h).length

/-- A price that is the median of enough submissions, all within the window. -/
def Fresh (params : OracleParams) (h : Int64) (d : String) (log : List Submission) (price : Dec) :
    Prop :=
  ∃ entries : List PriceEntry, entries.Nodup ∧ params.minSubmissions.toInt ≤ entries.length ∧
    (∀ e ∈ entries, (∃ sub ∈ log, sub.entry = e) ∧
      (e.denom = d ∨ ∃ rest, e.denom = d ++ "/" ++ rest) ∧
      h.toInt - params.twapWindowBlocks.toInt ≤ e.height.toInt) ∧
    medianPrice (entries.map PriceEntry.priceUSD) = .ok price

/-- Every whitelisted denomination with enough entries has a fresh price. -/
def FreshCache (params : OracleParams) (h : Int64) (n : Node) : Prop :=
  ∀ d ∈ params.whitelistedDenoms, Supplied n.world d h → ∃ data,
    n.world.chain.twaps.get ("twap/" ++ d) = some data ∧ Fresh params h d n.log data.twap

section Entries
variable {A : App} {params : OracleParams} {n m : Node} {ctx : Ctx A} {d : String} {h : Int64}

theorem Supplied.enough {w : World} (hs : Supplied w d h) : Enough w d h := by
  have hle : (ownEntries w d h).length ≤ (windowEntries w d h).length := List.length_filter_le ..
  unfold Supplied at hs
  unfold Enough
  omega

theorem Fresh.mono {log log' : List Submission} {price : Dec} (hlog : log ⊆ log')
    (hf : Fresh params h d log price) : Fresh params h d log' price := by
  obtain ⟨entries, hnodup, hmin, hentries, hmedian⟩ := hf
  refine ⟨entries, hnodup, hmin, fun e he => ?_, hmedian⟩
  obtain ⟨⟨sub, hsub, heq⟩, hrest⟩ := hentries e he
  exact ⟨⟨sub, hlog hsub, heq⟩, hrest⟩

theorem mem_ownEntries (hr : Recorded A params n) {e : PriceEntry} :
    e ∈ ownEntries n.world d h ↔ e.denom = d ∧
      n.world.prices.get (priceKey d e.height) = some e ∧ windowStart params h ≤ e.height := by
  rw [ownEntries, List.mem_filter, decide_eq_true_eq, windowEntries, hr.mem_priceHistory,
    hr.params_eq]
  constructor
  · rintro ⟨⟨hget, -, hle⟩, rfl⟩
    exact ⟨rfl, hget, hle⟩
  · rintro ⟨rfl, hget, hle⟩
    exact ⟨⟨hget, isPrefixOf_priceKey _ _, hle⟩, rfl⟩

/-- A denomination that gained no entry is supplied only if it was before. -/
theorem Supplied.of_le (hs : Supplied m.world d h) (hr : Recorded A params n)
    (hr' : Recorded A params m) (hle : ∀ e : PriceEntry, e.denom = d →
      m.world.prices.get (priceKey d e.height) = some e →
        n.world.prices.get (priceKey d e.height) = some e) : Supplied n.world d h := by
  have hsub : ownEntries m.world d h ⊆ ownEntries n.world d h := by
    intro e he
    obtain ⟨hdenom, hget, hstart⟩ := (mem_ownEntries hr').mp he
    exact (mem_ownEntries hr).mpr ⟨hdenom, hle e hdenom hget, hstart⟩
  have hnodup : (ownEntries m.world d h).Nodup := hr'.history_nodup.filter _
  have hlen := (List.subperm_of_subset hnodup hsub).length_le
  rw [Supplied, hr'.params_eq] at hs
  rw [Supplied, hr.params_eq]
  omega

/-- What has just been computed is fresh. -/
theorem current_fresh (hr : Recorded A params n)
    (hwindow : 0 ≤ params.twapWindowBlocks.toInt) (hheight : 0 ≤ ctx.height.toInt)
    {twaps : Store String TWAPData} (henough : Enough n.world d ctx.height)
    (hc : Current ctx n.world twaps d) :
    ∃ data, twaps.get ("twap/" ++ d) = some data ∧ Fresh params ctx.height d n.log data.twap := by
  obtain ⟨median, hmedian, hget⟩ := hc
  rw [Enough, hr.params_eq] at henough
  refine ⟨_, hget, _, hr.history_nodup, henough, fun e he => ?_, hmedian⟩
  have hstart := (hr.mem_priceHistory.mp he).2.2
  rw [hr.params_eq, Int64.le_iff_toInt_le, windowStart_toInt hwindow hheight] at hstart
  exact ⟨hr.history_logged he, hr.history_under he, by omega⟩

end Entries

section Runs
variable {A : App} {params : OracleParams} {n n' : Node} {ctx : Ctx A}

/-- Pruning supplies nothing. -/
theorem Supplied.of_pruned {w : World} {log : List Submission} {d : String} {h k : Int64}
    (hr : Recorded A params ⟨w, log⟩) (hs : Supplied (pruned w k) d h) : Supplied w d h := by
  refine Supplied.of_le (n := ⟨w, log⟩) (m := ⟨pruned w k, log⟩) hs hr (hr.prune k)
    fun e _ hget => ?_
  rw [get_pruned, Option.filter_eq_some_iff] at hget
  exact hget.1

/-- A denomination that is supplied after its refresh has a fresh price. -/
theorem refreshed_fresh {w w' : World} {log : List Submission} {d : String}
    (hwindow : 0 ≤ params.twapWindowBlocks.toInt) (hheight : 0 ≤ ctx.height.toInt)
    (hr : Recorded A params ⟨w, log⟩) (hm : Refreshed ctx d w w')
    (hs : Supplied w' d ctx.height) : ∃ data,
    w'.chain.twaps.get ("twap/" ++ d) = some data ∧ Fresh params ctx.height d log data.twap := by
  have henough := (hm.cacheOnly.enough d ctx.height).mp hs.enough
  exact current_fresh (n := ⟨w, log⟩) hr hwindow hheight henough (hm.current henough)

theorem FreshCache.deliver (hwindow : 0 ≤ params.twapWindowBlocks.toInt)
    (hheight : 0 ≤ ctx.height.toInt) (hr : Recorded A params n)
    (hn : FreshCache params ctx.height n) (h : Delivered ctx n n') :
    FreshCache params ctx.height n' := by
  have hr' := hr.deliver h
  intro d hd hs
  cases h with
  | accepted msg submitter price w' h =>
      by_cases heq : d = msg.denom
      · -- the price of the submission's own denomination has just been computed
        subst heq
        have hstored := hr.accept h
        have hwhite := hr.params_eq ▸ h.whitelisted
        obtain ⟨m, hm, rfl⟩ := h.result
        have hrefreshed := hstored.recache hm.cacheOnly fun d hd =>
          hm.get_ne fun heq => hd (heq ▸ hwhite)
        have hfresh := refreshed_fresh hwindow hheight hstored hm (Supplied.of_pruned hrefreshed hs)
        rw [pruned_eq]
        exact hfresh
      · have hsupplied : Supplied n.world d ctx.height := by
          refine hs.of_le hr hr' fun e _ hget => ?_
          rw [h.get_prices, Option.filter_eq_some_iff,
            if_neg fun hkey => heq (priceKey_inj hkey).1] at hget
          exact hget.1
        obtain ⟨data, hget, hfresh⟩ := hn d hd hsupplied
        exact ⟨data, (h.get_twaps_ne heq).trans hget, hfresh.mono (List.subset_append_left ..)⟩
  | apart w' hprices hparams htwaps =>
      obtain ⟨data, hget, hfresh⟩ := hn d hd (hs.of_le hr hr' fun e _ hget => by
        rw [hprices] at hget
        exact hget)
      exact ⟨data, by rw [htwaps]; exact hget, hfresh⟩

variable (A) in
theorem fresh_invariant (hwindow : 0 ≤ params.twapWindowBlocks.toInt) :
    Invariant A fun h n => Recorded A params n ∧ 0 ≤ h.toInt ∧ (0 < h → FreshCache params h n) where
  refresh {h ctx n w'} hlt hn hbegin := by
    obtain ⟨hr, hheight, -⟩ := hn
    have hlt' := Int64.lt_iff_toInt_lt.mp hlt
    refine ⟨hr.refresh hbegin, by omega, fun _ d hd hs => ?_⟩
    rw [beginBlock_ok, hr.params_eq] at hbegin
    obtain ⟨hcache, hcurrent, -⟩ := refreshAll_ok hbegin
    have henough := (hcache.enough d ctx.height).mp hs.enough
    exact current_fresh hr hwindow (by omega) henough (hcurrent d hd henough)
  deliver {ctx n n'} h hn := by
    obtain ⟨hr, hheight, hfresh⟩ := hn
    exact ⟨hr.deliver h, hheight, fun hpos => (hfresh hpos).deliver hwindow hheight hr h⟩
  prune {h n} hn := by
    obtain ⟨hr, hheight, hfresh⟩ := hn
    refine ⟨hr.prune h, hheight, fun hpos d hd hs => ?_⟩
    rw [pruned_eq]
    exact hfresh hpos d hd (Supplied.of_pruned hr hs)

/-- The denomination a message reads the price of. -/
def pricedDenom : ZytdMsg → Option String
  | .mint msg => some msg.ibcDenom
  | .liquidate msg => some msg.ibcDenom
  | _ => none

/-- A message that returned after reading a price read one that is cached. -/
theorem exec_reads {z : ZytdMsg} {d : String} {s t : State} {u : Unit}
    (hd : pricedDenom z = some d) (h : z.exec ctx s = .ok u t) :
    ∃ data, s.twaps.get ("twap/" ++ d) = some data := by
  rcases ZytdMessages.exec_ok h with ⟨msg, r, rfl, hmint⟩ | ⟨msg, sender, rfl, -⟩
  · obtain rfl := Option.some.inj hd
    simp only [mintZYTD, bind_ok] at hmint
    obtain ⟨terms, _, hterms, -⟩ := hmint
    obtain ⟨-, -, -, -, asset, twap, limit, -, -, htwap, -⟩ := mintTerms_ok hterms
    exact ⟨twap, htwap⟩
  · cases hd

/-- A mint or a liquidation that succeeds while the denomination is supplied used
a fresh price. -/
theorem priced_fresh (hwindow : 0 ≤ params.twapWindowBlocks.toInt) (bank : BankGenesis)
    (staking : ValidatorSet) (h : Reached ctx (genesis A bank params staking) n) (z : ZytdMsg)
    (d : String) (hd : pricedDenom z = some d) (u : Unit) (t : State)
    (hz : z.exec ctx n.world.chain = .ok u t) (hs : Supplied n.world d ctx.height) :
    ∃ data, getTWAP d n.world.chain = .ok data n.world.chain ∧
      Fresh params ctx.height d n.log data.twap := by
  obtain ⟨hr, -, hfresh⟩ := (fresh_invariant A hwindow).reached
    ⟨recorded_genesis bank staking, le_refl _, fun hpos => absurd hpos (by decide)⟩ h
  obtain ⟨cached, hcached⟩ := exec_reads hd hz
  obtain ⟨data, hget, hfresh⟩ := hfresh h.height_pos d (hr.cached d cached hcached) hs
  exact ⟨data, (lookup_ok _ _).mpr ⟨hget, rfl⟩, hfresh⟩

end Runs

section Naming
variable {A : App} {n : Node} {ctx : Ctx A}

/-- The two registries name the same assets, but not by the same names. -/
theorem default_names : ∀ asset ∈ defaultCollateralAssets,
    asset.baseDenom ∈ defaultOracleParams.whitelistedDenoms ∧
      asset.ibcDenom ∉ defaultOracleParams.whitelistedDenoms :=
  List.all_iff_forall_prop.mp (by decide)

theorem default_uncached (bank : BankGenesis) (staking : ValidatorSet)
    (h : Reached ctx (genesis A bank defaultOracleParams staking) n) {asset : CollateralAsset}
    (hasset : asset ∈ defaultCollateralAssets) :
    n.world.chain.twaps.get ("twap/" ++ asset.ibcDenom) = none := by
  have hr := (recorded_invariant A defaultOracleParams).reached (recorded_genesis bank staking) h
  rw [Option.eq_none_iff_forall_ne_some]
  intro data hdata
  exact (default_names asset hasset).2 (hr.cached _ data hdata)

variable (A) in
/-- Some run brings the price of an asset, by the name a mint uses, to a value. -/
def CanBePriced (bank : BankGenesis) (staking : ValidatorSet) (asset : CollateralAsset)
    (price : Dec) : Prop :=
  ∃ (ctx : Ctx A) (n : Node), Reached ctx (genesis A bank defaultOracleParams staking) n ∧
    ∃ data s, getTWAP asset.ibcDenom n.world.chain = .ok data s ∧ data.twap = price

theorem CanBePriced.not_default {bank : BankGenesis} {staking : ValidatorSet}
    {asset : CollateralAsset} {price : Dec} (h : CanBePriced A bank staking asset price) :
    asset ∉ defaultCollateralAssets := by
  obtain ⟨ctx, n, hreached, data, s, hget, -⟩ := h
  intro hasset
  have hnone := default_uncached bank staking hreached hasset
  rw [((lookup_ok _ _).mp hget).1] at hnone
  cases hnone

/-- No asset of default genesis ever gets a price, whatever is submitted. -/
theorem default_never_priced (bank : BankGenesis) (staking : ValidatorSet) (asset : CollateralAsset)
    (hasset : asset ∈ defaultCollateralAssets) (price : Dec) :
    ¬CanBePriced A bank staking asset price := fun h => h.not_default hasset

end Naming

section Devnet
open Devnet

/-- `uzytc` as default genesis whitelists it. -/
def zytcAsset : CollateralAsset :=
  ⟨"uzytc", "ZYTC", .newDecWithPrec 200 2, .newDecWithPrec 150 2, true⟩

theorem zytcAsset_stuck : zytcAsset ∈ defaultCollateralAssets ∧ zytcAsset.isActive = true ∧
    ¬CanBePriced devnet treasury aliceOnly zytcAsset (.newDecWithPrec 1 0) := by
  have hmem : zytcAsset ∈ defaultCollateralAssets := by decide
  exact ⟨hmem, rfl, fun h => h.not_default hmem⟩

theorem zytcAsset_never_priced :
    zytcAsset ∈ defaultCollateralAssets ∧
      ¬CanBePriced devnet treasury aliceOnly zytcAsset (.newDecWithPrec 2 0) :=
  ⟨by decide, default_never_priced treasury aliceOnly zytcAsset (by decide) _⟩

/-- An oracle for the name a mint uses. -/
def uzytcParams : OracleParams := { defaultOracleParams with whitelistedDenoms := ["uzytc"] }

def uzytcGenesis : Node := genesis devnet treasury uzytcParams aliceOnly

def priceOne : BlockMsg := submit alice "uzytc" (.newDecWithPrec 1 0)

def aliceMint : ZytdMsg :=
  .mint ⟨devnet.text alice, "uzytc", some (.newInt 2), some (.newInt 1), 200, [], []⟩

/-- Two prices, then nothing for almost a hundred blocks. -/
def staleRun : Call Node Err Unit :=
  upTo (blockAt 100) [⟨blockAt 1, [priceOne]⟩, ⟨blockAt 2, [priceOne]⟩] []

def stale : Node := commit staleRun uzytcGenesis

theorem stale_facts : (staleRun uzytcGenesis).returned = some () ∧
    (aliceMint.exec (blockAt 100) stale.world.chain).returned = some () ∧
    ∀ sub ∈ stale.log, sub.entry.height.toInt ≤ 2 := by
  decide +kernel

/-- At height 100 a mint succeeds with a price of height 2. -/
theorem stale_price_used : Reached (blockAt 100) uzytcGenesis stale ∧
    (aliceMint.exec (blockAt 100) stale.world.chain).returned = some () ∧
    ∀ price, ¬Fresh uzytcParams 100 "uzytc" stale.log price := by
  obtain ⟨hreturned, hmint, hold⟩ := stale_facts
  refine ⟨reached_commit (show Increasing [1, 2, 100] by unfold Increasing; decide) hreturned,
    hmint, ?_⟩
  rintro price ⟨entries, -, hmin, hentries, -⟩
  have hpos : 0 < entries.length := by
    have htwo : uzytcParams.minSubmissions.toInt = 2 := by decide
    omega
  obtain ⟨e, he⟩ := List.exists_mem_of_length_pos hpos
  obtain ⟨⟨sub, hsub, rfl⟩, -, hrecent⟩ := hentries e he
  have hle := hold sub hsub
  have hstart : (100 : Int64).toInt - uzytcParams.twapWindowBlocks.toInt = 70 := by decide
  omega

/-- A mint in the block of the second price. -/
def recentRun : Call Node Err Unit := upTo (blockAt 2) [⟨blockAt 1, [priceOne]⟩] [priceOne]

def recent : Node := commit recentRun uzytcGenesis

theorem recent_facts : (recentRun uzytcGenesis).returned = some () ∧
    (aliceMint.exec (blockAt 2) recent.world.chain).returned = some () ∧
    (paramsOf recent.world).minSubmissions.toInt ≤
      (ownEntries recent.world "uzytc" (blockAt 2).height).length := by
  decide +kernel

theorem recent_reached : Reached (blockAt 2) uzytcGenesis recent :=
  reached_commit (show Increasing [1, 2] by unfold Increasing; decide) recent_facts.1

theorem recent_price_used : ∃ data,
    getTWAP "uzytc" recent.world.chain = .ok data recent.world.chain ∧
      Fresh uzytcParams (blockAt 2).height "uzytc" recent.log data.twap := by
  obtain ⟨-, hmint, hsupplied⟩ := recent_facts
  exact priced_fresh (by decide) treasury aliceOnly recent_reached aliceMint "uzytc" rfl () _
    (ok_commit hmint) hsupplied

end Devnet

end Zytherion.PriceFreshness
