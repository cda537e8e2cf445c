import Zytherion.PriceFreshness
import Zytherion.PriceIsolation

/-!
# What the oracle answers

`QueryPrice`, `QueryAllPrices` and `QueryTWAP` read the store of the last committed block.
After every run of blocks that store is known exactly: under a denomination and a height
stands the last price that was accepted for them, until the pruning at the end of a block
reaches it. So the first two queries are answered from the history of submissions, and
entries come in the order of their keys, in which 10 comes before 9.

`QueryTWAP` answers from the cache and computes a price only if there is none. A price that
could be computed is in the cache already, so that this never succeeds.
-/
namespace Zytherion.OracleQueries

open GoCall KeyedStore SdkMath Application ChainState Bank StablecoinKeeper OracleKeeper
open OracleMsgServer OracleChain PriceLog PricePruning PriceIsolation GenesisExport

/-! The queries. -/

structure QueryPriceRequest where
  denom : String

structure QueryPriceResponse where
  denom : String
  priceUsd : Dec
  submitter : String
  height : Int64
deriving DecidableEq

structure QueryTWAPRequest where
  denom : String

structure QueryTWAPResponse where
  denom : String
  twap : Dec
  windowStart : Int64
  windowEnd : Int64
  numSamples : Int32
deriving DecidableEq

structure QueryAllPricesRequest where
  denom : String
  fromHeight : Int64

def priceResponse (e : PriceEntry) : QueryPriceResponse :=
  ⟨e.denom, e.priceUSD, e.submitter, e.height⟩

def twapResponse (data : TWAPData) : QueryTWAPResponse :=
  ⟨data.denom, data.twap, data.windowStart, data.windowEnd, data.numSamples.toInt32⟩

/-- A request that is there and names a denomination. -/
def named {R : Type} (denom : R → String) (req : Option R) : WorldExec R := do
  let req ← lookup (fun _ => req) (.plain "request cannot be nil")
  require (denom req != "") (.plain "denom cannot be empty")
  return req

def queryPrice (req : Option QueryPriceRequest) : WorldExec QueryPriceResponse := do
  let req ← named QueryPriceRequest.denom req
  let entry ← mapErr (.wrap "oracle")
    (lookup (fun w => getLatestPrice w req.denom)
      (.plain ("no price found for denom " ++ req.denom)))
  return priceResponse entry

def queryTWAP {A : App} (ctx : Ctx A) (req : Option QueryTWAPRequest) :
    WorldExec QueryTWAPResponse := do
  let req ← named QueryTWAPRequest.denom req
  let cached ← attempt (onChain (getTWAP req.denom))
  let twap ← match cached with
    | some twap => pure twap
    | none => mapErr (.wrap "oracle") (computeTWAP ctx req.denom)
  return twapResponse twap

def queryAllPrices (req : Option QueryAllPricesRequest) :
    WorldExec (List QueryPriceResponse) := do
  let req ← named QueryAllPricesRequest.denom req
  let entries ← getPriceHistory req.denom req.fromHeight
  return entries.map priceResponse

section Entries
variable {A : App} {params : OracleParams} {n : Node} {w : World} {d : String} {e : PriceEntry}

/-- The entries under the prefix of a denomination. -/
abbrev iterated (w : World) (denom : String) : List PriceEntry :=
  w.prices.select fun key => (historyKey denom).toList.isPrefixOf key.toList

/-- The keys come in ascending order, none of them twice. -/
theorem iterated_ascending (hr : Recorded A params n) (d : String) :
    (iterated n.world d).Pairwise fun a b =>
      priceKey a.denom a.height < priceKey b.denom b.height := by
  refine Store.pairwise_select fun k l a b hlt ha hb => ?_
  rwa [← (hr.stored k a ha).1, ← (hr.stored l b hb).1]

theorem mem_iterated (hr : Recorded A params n) (hd : Unmixed params d) :
    e ∈ iterated n.world d ↔
      e.denom = d ∧ n.world.prices.get (priceKey d e.height) = some e := by
  rw [Store.mem_select]
  constructor
  · rintro ⟨k, hget, hprefix⟩
    obtain ⟨rfl, sub, hsub, rfl⟩ := hr.stored k e hget
    have hdenom : sub.entry.denom = d := by
      by_contra hne
      rw [notPrefix_of_unmixed hd (hr.logged sub hsub).1 hne] at hprefix
      cases hprefix
    exact ⟨hdenom, hdenom ▸ hget⟩
  · rintro ⟨rfl, hget⟩
    exact ⟨_, hget, isPrefixOf_priceKey ..⟩

/-- The fold keeps an entry of the greatest height. -/
theorem foldl_laterPrice_some {l : List PriceEntry} {o : Option PriceEntry} {r : PriceEntry}
    (h : l.foldl laterPrice o = some r) :
    (r ∈ l ∨ o = some r) ∧ (∀ e ∈ l, e.height ≤ r.height) ∧
      ∀ e, o = some e → e.height ≤ r.height := by
  induction l generalizing o with
  | nil =>
      obtain rfl : o = some r := h
      exact ⟨.inr rfl, by simp, fun e he => by rw [Option.some.inj he]; exact Int64.le_refl _⟩
  | cons e rest ih =>
      rw [List.foldl_cons] at h
      obtain ⟨hmem, hrest, hfirst⟩ := ih h
      cases o with
      | none =>
          refine ⟨?_, List.forall_mem_cons.mpr ⟨hfirst e rfl, hrest⟩, fun _ he => by cases he⟩
          rcases hmem with hmem | heq
          · exact .inl (List.mem_cons_of_mem _ hmem)
          · exact .inl (Option.some.inj heq ▸ List.mem_cons_self)
      | some old =>
          by_cases hlt : old.height < e.height
          · have hlater : laterPrice (some old) e = some e := if_pos hlt
            have hle := hfirst e hlater
            refine ⟨?_, List.forall_mem_cons.mpr ⟨hle, hrest⟩, fun x hx => ?_⟩
            · rcases hmem with hmem | heq
              · exact .inl (List.mem_cons_of_mem _ hmem)
              · exact .inl (Option.some.inj (hlater.symm.trans heq) ▸ List.mem_cons_self)
            · rw [← Option.some.inj hx]
              exact Int64.le_trans (Int64.le_of_lt hlt) hle
          · have hlater : laterPrice (some old) e = some old := if_neg hlt
            have hle := hfirst old hlater
            refine ⟨?_, List.forall_mem_cons.mpr
              ⟨Int64.le_trans (Int64.not_lt.mp hlt) hle, hrest⟩, fun x hx => ?_⟩
            · rcases hmem with hmem | heq
              · exact .inl (List.mem_cons_of_mem _ hmem)
              · exact .inr (hlater.symm.trans heq)
            · rw [← Option.some.inj hx]
              exact hle

theorem foldl_laterPrice_none {l : List PriceEntry} {o : Option PriceEntry} :
    l.foldl laterPrice o = none ↔ l = [] ∧ o = none := by
  induction l generalizing o with
  | nil => simp
  | cons e rest ih =>
      have hsome : laterPrice o e ≠ none := by
        unfold laterPrice
        split
        · simp
        · split_ifs <;> simp
      rw [List.foldl_cons, ih]
      simp [hsome]

end Entries

/-! What stands in the store. -/

/-- The last submission for a denomination. -/
def lastFor (log : List Submission) (d : String) : Option Submission :=
  log.reverse.find? fun sub => decide (sub.entry.denom = d)

/-- The store holds the last submissions except for those pruned at height `p`. -/
structure Exact (params : OracleParams) (p h : Int64) (n : Node) : Prop where
  nonneg : 0 ≤ p
  le : p ≤ h
  stored : ∀ d k, n.world.prices.get (priceKey d k) =
    ((lastAt n.log d k).map Submission.entry).filter (retained params p)
  bounded : ∀ sub ∈ n.log, sub.entry.height ≤ h
  ordered : n.log.Pairwise fun a b => a.entry.height ≤ b.entry.height

section Invariants
variable {A : App} {params : OracleParams} {n n' : Node} {ctx : Ctx A} {p q h : Int64}

theorem cutoff_toInt (hsane : Sane params) (hh : 0 ≤ h) : (cutoff params h).toInt =
    h.toInt - params.twapWindowBlocks.toInt - params.maxPriceAge.toInt := by
  have hh' := Int64.le_iff_toInt_le.mp hh
  rw [Int64.toInt_zero] at hh'
  have hfits := hsane.fits
  exact cutoff_exact hsane.window_nonneg hsane.age_nonneg hh' (by omega)

/-- What a later pruning leaves was left by an earlier one. -/
theorem retained_mono (hsane : Sane params) (hp : 0 ≤ p) (hpq : p ≤ q) {e : PriceEntry}
    (h : retained params q e = true) : retained params p e = true := by
  have hq : 0 ≤ q := Int64.le_trans hp hpq
  rw [retained_iff, Spares, Int64.le_iff_toInt_le, Int64.le_iff_toInt_le] at h ⊢
  rw [cutoff_toInt hsane hq] at h
  rw [cutoff_toInt hsane hp]
  have hle := Int64.le_iff_toInt_le.mp hpq
  omega

theorem filter_retained_filter (hsane : Sane params) (hp : 0 ≤ p) (hpq : p ≤ q)
    (o : Option PriceEntry) :
    (o.filter (retained params p)).filter (retained params q) = o.filter (retained params q) := by
  cases o with
  | none => rfl
  | some e =>
      by_cases hq : retained params q e = true
      · simp [Option.filter, hq, retained_mono hsane hp hpq hq]
      · by_cases hp' : retained params p e = true <;> simp [Option.filter, hq, hp']

theorem Exact.refresh {w' : World} (hr : Recorded A params n) (hn : Exact params p h n)
    (hlt : h < ctx.height) (hbegin : beginBlock ctx n.world = .ok () w') :
    Exact params p ctx.height ⟨w', n.log⟩ := by
  rw [beginBlock_ok, hr.params_eq] at hbegin
  obtain ⟨hcache, -⟩ := refreshAll_ok hbegin
  have hle := Int64.le_of_lt hlt
  refine ⟨hn.nonneg, Int64.le_trans hn.le hle, fun d k => ?_, fun sub hsub =>
    Int64.le_trans (hn.bounded sub hsub) hle, hn.ordered⟩
  rw [hcache.prices]
  exact hn.stored d k

theorem Exact.prune (hsane : Sane params) (hr : Recorded A params n) (hn : Exact params p h n) :
    Exact params h h ⟨pruned n.world h, n.log⟩ := by
  refine ⟨Int64.le_trans hn.nonneg hn.le, Int64.le_refl h, fun d k => ?_, hn.bounded, hn.ordered⟩
  rw [get_pruned, hr.params_eq, hn.stored, filter_retained_filter hsane hn.nonneg hn.le]

theorem Exact.deliver (hsane : Sane params) (hr : Recorded A params n)
    (hn : Exact params p ctx.height n) (h : Delivered ctx n n') :
    ∃ q, Exact params q ctx.height n' := by
  cases h with
  | accepted msg submitter price w' h =>
      refine ⟨ctx.height, Int64.le_trans hn.nonneg hn.le, Int64.le_refl _, fun d k => ?_, ?_, ?_⟩
      · rw [h.get_prices, hr.params_eq, lastAt_snoc]
        simp only [priceKey_eq_iff, MsgSubmitPrice.entry, @eq_comm _ msg.denom,
          @eq_comm _ ctx.height]
        split_ifs with hkey
        · rfl
        · rw [hn.stored, filter_retained_filter hsane hn.nonneg hn.le]
      · intro sub hsub
        rcases List.mem_append.mp hsub with hsub | hsub
        · exact hn.bounded sub hsub
        · rw [List.mem_singleton.mp hsub]
          exact Int64.le_refl _
      · refine List.pairwise_append.mpr ⟨hn.ordered, List.pairwise_singleton _ _, ?_⟩
        intro a ha b hb
        rw [List.mem_singleton.mp hb]
        exact hn.bounded a ha
  | apart w' hprices hparams htwaps =>
      refine ⟨p, hn.nonneg, hn.le, fun d k => ?_, hn.bounded, hn.ordered⟩
      rw [hprices]
      exact hn.stored d k

variable (A) in
theorem exact_invariant (hsane : Sane params) :
    Invariant A fun h n => Recorded A params n ∧ ∃ p, Exact params p h n where
  refresh hlt hn hbegin := by
    obtain ⟨hr, p, hp⟩ := hn
    exact ⟨hr.refresh hbegin, p, hp.refresh hr hlt hbegin⟩
  deliver hdelivered hn := by
    obtain ⟨hr, p, hp⟩ := hn
    exact ⟨hr.deliver hdelivered, hp.deliver hsane hr hdelivered⟩
  prune hn := by
    obtain ⟨hr, p, hp⟩ := hn
    exact ⟨hr.prune _, _, hp.prune hsane hr⟩

variable (A params) in
theorem exact_genesis (bank : BankGenesis) (staking : ValidatorSet) :
    Exact params 0 0 (genesis A bank params staking) := by
  rw [genesis_eq]
  exact ⟨Int64.le_refl _, Int64.le_refl _, fun _ _ => rfl, by simp, List.Pairwise.nil⟩

end Invariants

/-! Committed states. -/

/-- Whole blocks and a further one. -/
def through {A : App} (ctx : Ctx A) (before : List (Block A)) (msgs : List BlockMsg) :
    Call Node Err Unit := do
  List.forM before block
  block ⟨ctx, msgs⟩

/-- After whole blocks at increasing heights. -/
def Committed {A : App} (ctx : Ctx A) (start n : Node) : Prop :=
  ∃ (before : List (Block A)) (msgs : List BlockMsg),
    Increasing (before.map Block.height ++ [ctx.height]) ∧ through ctx before msgs start = .ok () n

section Committed
variable {A : App} {params : OracleParams} {n start : Node} {ctx : Ctx A}

/-- Pruning is the last thing that happens. -/
theorem Committed.reached (h : Committed ctx start n) :
    ∃ m, Reached ctx start m ∧ n = ⟨pruned m.world ctx.height, m.log⟩ := by
  obtain ⟨before, msgs, hasc, hrun⟩ := h
  obtain ⟨_, x, hbefore, hblock⟩ := (bind_ok _ _).mp hrun
  obtain ⟨m, hopened, rfl⟩ := block_ok.mp hblock
  exact ⟨m, ⟨before, msgs, hasc, (bind_ok _ _).mpr ⟨_, x, hbefore, hopened⟩⟩, rfl⟩

theorem Committed.exact (hsane : Sane params) {bank : BankGenesis} {staking : ValidatorSet}
    (h : Committed ctx (genesis A bank params staking) n) :
    Recorded A params n ∧ Exact params ctx.height ctx.height n := by
  obtain ⟨m, hm, rfl⟩ := h.reached
  obtain ⟨hr, p, hp⟩ := (exact_invariant A hsane).reached
    ⟨recorded_genesis bank staking, 0, exact_genesis A params bank staking⟩ hm
  exact ⟨hr.prune _, hp.prune hsane hr⟩

end Committed

/-! Prices. -/

section Prices
variable {A : App} {params : OracleParams} {n : Node} {p h : Int64} {d : String}
  {sub : Submission} {e : PriceEntry}

theorem Exact.mem_iterated (hn : Exact params p h n) (hr : Recorded A params n)
    (hd : Unmixed params d) : e ∈ iterated n.world d ↔
      (∃ sub, lastAt n.log d e.height = some sub ∧ sub.entry = e) ∧ Spares params p e.height := by
  rw [OracleQueries.mem_iterated hr hd, hn.stored, Option.filter_eq_some_iff,
    Option.map_eq_some_iff, retained_iff]
  constructor
  · exact fun h => h.2
  · rintro ⟨⟨sub, hsub, rfl⟩, hspares⟩
    exact ⟨(lastAt_some hsub).2.1, ⟨sub, hsub, rfl⟩, hspares⟩

/-- The last submission of all is the last one at its height, and no other is later. -/
theorem Exact.lastFor_last (hn : Exact params p h n) (hsub : lastFor n.log d = some sub) :
    sub.entry.denom = d ∧ lastAt n.log d sub.entry.height = some sub ∧
      ∀ other ∈ n.log, other.entry.denom = d → other.entry.height ≤ sub.entry.height := by
  obtain ⟨hdenom, later, earlier, hlog, hlater⟩ := List.find?_eq_some_iff_append.mp hsub
  have hdenom := of_decide_eq_true hdenom
  have hlater : ∀ other ∈ later, other.entry.denom ≠ d := fun other hother => by
    simpa using hlater other hother
  refine ⟨hdenom, List.find?_eq_some_iff_append.mpr
    ⟨by simp [hdenom], later, earlier, hlog, fun other hother => ?_⟩, fun other hmem hother => ?_⟩
  · simp [hlater other hother]
  · have hordered : (later ++ sub :: earlier).Pairwise fun a b =>
        b.entry.height ≤ a.entry.height := by
      rw [← hlog]
      exact List.pairwise_reverse.mpr hn.ordered
    have hmem : other ∈ later ++ sub :: earlier := hlog ▸ List.mem_reverse.mpr hmem
    rcases List.mem_append.mp hmem with hmem | hmem
    · exact absurd hother (hlater other hmem)
    · rcases List.mem_cons.mp hmem with rfl | hmem
      · exact Int64.le_refl _
      · exact List.rel_of_pairwise_cons (List.pairwise_append.mp hordered).2.1 hmem

theorem lastFor_of_mem {log : List Submission} (h : sub ∈ log) (hd : sub.entry.denom = d) :
    ∃ last, lastFor log d = some last := by
  rw [← Option.isSome_iff_exists, lastFor, List.find?_isSome]
  exact ⟨sub, List.mem_reverse.mpr h, by simp [hd]⟩

theorem spares_mono {k l : Int64} (h : Spares params p k) (hkl : k ≤ l) : Spares params p l :=
  h.imp_right fun h => Int64.le_trans h hkl

/-- Of the entries of a denomination the latest one is the last submission. -/
theorem Exact.latest (hn : Exact params p h n) (hr : Recorded A params n)
    (hd : Unmixed params d) : (iterated n.world d).foldl laterPrice none = some e ↔
      ∃ sub, lastFor n.log d = some sub ∧ sub.entry = e ∧ Spares params p e.height := by
  constructor
  · intro hlatest
    obtain ⟨hmem, hmax, -⟩ := foldl_laterPrice_some hlatest
    obtain ⟨⟨sub, hsub, rfl⟩, hspares⟩ :=
      (hn.mem_iterated hr hd).mp (hmem.resolve_right (by simp))
    obtain ⟨hlogged, hdenom, -⟩ := lastAt_some hsub
    obtain ⟨last, hlast⟩ := lastFor_of_mem hlogged hdenom
    obtain ⟨hdenom', hat, hlater⟩ := hn.lastFor_last hlast
    have hle := hlater sub hlogged hdenom
    -- the last submission is in the store too, so it is not later than the latest entry
    have hge := hmax last.entry
      ((hn.mem_iterated hr hd).mpr ⟨⟨last, hat, rfl⟩, spares_mono hspares hle⟩)
    rw [← Int64.le_antisymm hle hge, hsub] at hat
    obtain rfl := Option.some.inj hat
    exact ⟨sub, hlast, rfl, hspares⟩
  · rintro ⟨sub, hlast, rfl, hspares⟩
    obtain ⟨hdenom, hat, hlater⟩ := hn.lastFor_last hlast
    have hmem := (hn.mem_iterated hr hd).mpr ⟨⟨sub, hat, rfl⟩, hspares⟩
    cases hlatest : (iterated n.world d).foldl laterPrice none with
    | none =>
        rw [(foldl_laterPrice_none.mp hlatest).1] at hmem
        cases hmem
    | some r =>
        obtain ⟨hr', hmax, -⟩ := foldl_laterPrice_some hlatest
        obtain ⟨⟨other, hother, rfl⟩, -⟩ := (hn.mem_iterated hr hd).mp (hr'.resolve_right (by simp))
        obtain ⟨hlogged, hdenom', -⟩ := lastAt_some hother
        have heq := Int64.le_antisymm (hlater other hlogged hdenom') (hmax _ hmem)
        rw [heq, hat] at hother
        rw [Option.some.inj hother]

theorem named_ok {R : Type} {denom : R → String} {req : Option R} {r : R} {w w' : World} :
    named denom req w = .ok r w' ↔ req = some r ∧ denom r ≠ "" ∧ w = w' := by
  simp only [named, bind_ok, lookup_ok, require_ok, pure_ok, bne_iff_ne]
  constructor
  · rintro ⟨_, _, ⟨rfl, rfl⟩, _, _, ⟨hne, rfl⟩, rfl, rfl⟩
    exact ⟨rfl, hne, rfl⟩
  · rintro ⟨rfl, hne, rfl⟩
    exact ⟨r, w, ⟨rfl, rfl⟩, (), w, ⟨hne, rfl⟩, rfl, rfl⟩

end Prices

/-! Cached prices. -/

/-- The price that could be computed for a denomination at a height is what the cache holds. -/
def CurrentAt (params : OracleParams) (h : Int64) (w : World) (d : String) : Prop :=
  Enough w d h → ∃ median,
    medianPrice ((windowEntries w d h).map PriceEntry.priceUSD) = .ok median ∧
    w.chain.twaps.get ("twap/" ++ d) = some ⟨d, median, windowStart params h, h,
      Int64.ofNat (windowEntries w d h).length⟩

section Cache
variable {A : App} {params : OracleParams} {n n' : Node} {ctx : Ctx A} {h : Int64} {d : String}
  {w w' : World}

theorem queryTWAP_ok {resp : QueryTWAPResponse} :
    (∃ w', queryTWAP ctx (some ⟨d⟩) w = .ok resp w') ↔ d ≠ "" ∧
      ((∃ data, w.chain.twaps.get ("twap/" ++ d) = some data ∧ resp = twapResponse data) ∨
        w.chain.twaps.get ("twap/" ++ d) = none ∧
          ∃ data w', computeTWAP ctx d w = .ok data w' ∧ resp = twapResponse data) := by
  have hcached : attempt (onChain (getTWAP d)) w = .ok (w.chain.twaps.get ("twap/" ++ d)) w := by
    simp only [attempt, onChain, zoom, getTWAP, lookup]
    cases w.chain.twaps.get ("twap/" ++ d) <;> rfl
  simp only [queryTWAP, bind_ok, named_ok]
  constructor
  · rintro ⟨_, _, _, ⟨hreq, hne, rfl⟩, _, _, hlook, hrest⟩
    obtain rfl := Option.some.inj hreq
    obtain ⟨rfl, rfl⟩ := Outcome.ok.inj (hcached.symm.trans hlook)
    refine ⟨hne, ?_⟩
    cases hget : w.chain.twaps.get ("twap/" ++ d) with
    | some cached =>
        rw [hget] at hrest
        obtain ⟨rfl, -⟩ := (pure_ok _ _).mp hrest
        exact .inl ⟨_, rfl, rfl⟩
    | none =>
        rw [hget] at hrest
        obtain ⟨data, _, hdata, hresp⟩ := (bind_ok _ _).mp hrest
        obtain ⟨rfl, -⟩ := (pure_ok _ _).mp hresp
        exact .inr ⟨rfl, data, _, (mapErr_ok _ _).mp hdata, rfl⟩
  · rintro ⟨hne, ⟨data, hget, rfl⟩ | ⟨hnone, data, w', hdata, rfl⟩⟩
    · refine ⟨w, _, _, ⟨rfl, hne, rfl⟩, _, _, hcached, ?_⟩
      rw [hget]
      rfl
    · refine ⟨w', _, _, ⟨rfl, hne, rfl⟩, _, _, hcached, ?_⟩
      rw [hnone]
      exact (bind_ok _ _).mpr ⟨data, w', (mapErr_ok _ _).mpr hdata, rfl⟩

theorem CurrentAt.congr (hcurrent : CurrentAt params h w d) (hparams : paramsOf w' = paramsOf w)
    (hentries : windowEntries w' d h = windowEntries w d h)
    (hcache : w'.chain.twaps.get ("twap/" ++ d) = w.chain.twaps.get ("twap/" ++ d)) :
    CurrentAt params h w' d := by
  unfold CurrentAt Enough at hcurrent ⊢
  rw [hentries, hparams, hcache]
  exact hcurrent

/-- Pruning leaves the window. -/
theorem windowEntries_pruned (hsane : Sane params) (hparams : paramsOf w = params)
    (hh : 0 ≤ h.toInt) (d : String) : windowEntries (pruned w h) d h = windowEntries w d h := by
  rw [windowEntries, windowEntries, paramsOf_pruned, priceHistory, priceHistory, hparams]
  unfold pruned
  rw [hparams]
  split_ifs with hnone
  · rfl
  · rw [Store.select_discard, List.filter_filter]
    refine List.filter_congr fun e _ => ?_
    by_cases hwindow : windowStart params h ≤ e.height
    · have hkept := retained_iff.mp (hsane.retained hh hwindow)
      simp [hwindow, Int64.not_lt, hkept.resolve_left hnone]
    · simp [hwindow]

theorem CurrentAt.pruned (hcurrent : CurrentAt params h w d) (hsane : Sane params)
    (hparams : paramsOf w = params) (hh : 0 ≤ h.toInt) :
    CurrentAt params h (pruned w h) d := by
  refine hcurrent.congr (paramsOf_pruned w h) (windowEntries_pruned hsane hparams hh d) ?_
  rw [pruned_eq]

theorem CurrentAt.of_current (hparams : paramsOf w = params) (hcache : CacheOnly w w')
    (hcurrent : Enough w d ctx.height → Current ctx w w'.chain.twaps d) :
    CurrentAt params ctx.height w' d := by
  intro henough
  obtain ⟨median, hmedian, hget⟩ := hcurrent ((hcache.enough d ctx.height).mp henough)
  refine ⟨median, ?_, ?_⟩
  · rw [hcache.windowEntries]
    exact hmedian
  · rw [hget, twapData, hparams, hcache.windowEntries]

/-- Only whitelisted denominations have entries. -/
theorem Recorded.enough_whitelisted (hr : Recorded A params n)
    (hmin : 0 < params.minSubmissions.toInt) (hd : Unmixed params d)
    (henough : Enough n.world d h) : d ∈ params.whitelistedDenoms := by
  rw [Enough, hr.params_eq] at henough
  have hpos : 0 < (windowEntries n.world d h).length := by omega
  obtain ⟨e, he⟩ := List.exists_mem_of_length_pos hpos
  obtain ⟨sub, hsub, rfl⟩ := hr.history_logged he
  rw [← hr.history_denom hd he]
  exact (hr.logged sub hsub).1

/-- A submission for another denomination adds nothing to the window. -/
theorem windowEntries_stored {e : PriceEntry} (hd : Unmixed params d)
    (hwhite : e.denom ∈ params.whitelistedDenoms) (hne : e.denom ≠ d) :
    windowEntries (OracleMsgServer.stored w e) d h = windowEntries w d h := by
  have hselect : (OracleMsgServer.stored w e).prices.select
      (fun key => (historyKey d).toList.isPrefixOf key.toList) =
        w.prices.select fun key => (historyKey d).toList.isPrefixOf key.toList :=
    Store.select_set_of_not (notPrefix_of_unmixed hd hwhite hne e.height)
  rw [windowEntries, windowEntries, priceHistory, priceHistory, hselect]
  rfl

theorem CurrentAt.deliver (hsane : Sane params) (hh : 0 ≤ ctx.height.toInt)
    (hr : Recorded A params n) (hd : Unmixed params d)
    (hcurrent : CurrentAt params ctx.height n.world d) (hdelivered : Delivered ctx n n') :
    CurrentAt params ctx.height n'.world d := by
  cases hdelivered with
  | accepted msg submitter price w' hw' =>
      have hwhite := hr.params_eq ▸ hw'.whitelisted
      obtain ⟨m, hm, rfl⟩ := hw'.result
      have hparams : paramsOf m = params := hm.cacheOnly.paramsOf.trans hr.params_eq
      refine CurrentAt.pruned ?_ hsane hparams hh
      by_cases heq : d = msg.denom
      · subst heq
        have hstored : paramsOf (OracleMsgServer.stored n.world (msg.entry ctx price)) = params :=
          hr.params_eq
        exact .of_current hstored hm.cacheOnly hm.current
      · refine hcurrent.congr hm.cacheOnly.paramsOf ?_ (hm.get_ne heq)
        rw [hm.cacheOnly.windowEntries]
        exact windowEntries_stored hd hwhite (Ne.symm heq)
  | apart w' hprices hparams htwaps =>
      refine hcurrent.congr hparams ?_ (by rw [htwaps])
      rw [windowEntries, windowEntries, priceHistory, priceHistory, hprices, hparams]

variable (A) in
theorem current_invariant (hsane : Sane params) (hmin : 0 < params.minSubmissions.toInt)
    (hd : Unmixed params d) : Invariant A fun h n =>
      Recorded A params n ∧ 0 ≤ h.toInt ∧ CurrentAt params h n.world d where
  refresh {h ctx n w'} hlt hn hbegin := by
    obtain ⟨hr, hh, -⟩ := hn
    have hlt' := Int64.lt_iff_toInt_lt.mp hlt
    refine ⟨hr.refresh hbegin, by omega, ?_⟩
    rw [beginBlock_ok, hr.params_eq] at hbegin
    obtain ⟨hcache, hcurrent, -⟩ := refreshAll_ok hbegin
    exact .of_current hr.params_eq hcache fun henough =>
      hcurrent d (Recorded.enough_whitelisted hr hmin hd henough) henough
  deliver {ctx n n'} hdelivered hn := by
    obtain ⟨hr, hh, hcurrent⟩ := hn
    exact ⟨hr.deliver hdelivered, hh, hcurrent.deliver hsane hh hr hd hdelivered⟩
  prune {h n} hn := by
    obtain ⟨hr, hh, hcurrent⟩ := hn
    exact ⟨hr.prune h, hh, hcurrent.pruned hsane hr.params_eq hh⟩

theorem Committed.current (hsane : Sane params) (hmin : 0 < params.minSubmissions.toInt)
    (hd : Unmixed params d) {bank : BankGenesis} {staking : ValidatorSet}
    (hn : Committed ctx (genesis A bank params staking) n) :
    Recorded A params n ∧ CurrentAt params ctx.height n.world d := by
  obtain ⟨m, hm, rfl⟩ := hn.reached
  have hgenesis : CurrentAt params 0 (genesis A bank params staking).world d := by
    intro henough
    exact absurd (lt_of_lt_of_le hmin henough) (lt_irrefl _)
  obtain ⟨hr, hh, hcurrent⟩ := (current_invariant A hsane hmin hd).reached
    ⟨recorded_genesis bank staking, le_refl _, hgenesis⟩ hm
  exact ⟨hr.prune _, hcurrent.pruned hsane hr.params_eq hh⟩

end Cache

/-! The answers. -/

section Answers
variable (A : App) (params : OracleParams) (hsane : Sane params) (bank : BankGenesis)
  (staking : ValidatorSet) (ctx : Ctx A) (n : Node)
  (hn : Committed ctx (genesis A bank params staking) n) (d : String) (hd : Unmixed params d)
include hsane hn hd

/-- All prices of a denomination from some height on are the last ones accepted at each height
that pruning has not reached, in the order of their keys. -/
theorem all_prices_answered (hne : d ≠ "") (fromHeight : Int64) :
    ∃ entries : List PriceEntry,
      queryAllPrices (some ⟨d, fromHeight⟩) n.world = .ok (entries.map priceResponse) n.world ∧
      (entries.Pairwise fun a b => priceKey a.denom a.height < priceKey b.denom b.height) ∧
      ∀ e, e ∈ entries ↔ fromHeight ≤ e.height ∧ Spares params ctx.height e.height ∧
        ∃ sub, lastAt n.log d e.height = some sub ∧ sub.entry = e := by
  obtain ⟨hr, hexact⟩ := hn.exact hsane
  refine ⟨(iterated n.world d).filter fun e => decide (fromHeight ≤ e.height), ?_,
    (iterated_ascending hr d).filter _, fun e => ?_⟩
  · simp only [queryAllPrices, getPriceHistory, bind_ok, named_ok, gets_ok, pure_ok]
    exact ⟨_, _, ⟨rfl, hne, rfl⟩, _, _, ⟨rfl, rfl⟩, rfl, rfl⟩
  · rw [List.mem_filter, hexact.mem_iterated hr hd, decide_eq_true_eq]
    constructor
    · rintro ⟨⟨hlast, hspares⟩, hfrom⟩
      exact ⟨hfrom, hspares, hlast⟩
    · rintro ⟨hfrom, hspares, hlast⟩
      exact ⟨⟨hlast, hspares⟩, hfrom⟩

/-- The price of a denomination is the one accepted last, until pruning reaches it. -/
theorem last_price_answered (resp : QueryPriceResponse) :
    (∃ w, queryPrice (some ⟨d⟩) n.world = .ok resp w) ↔ d ≠ "" ∧
      ∃ sub, lastFor n.log d = some sub ∧ resp = priceResponse sub.entry ∧
        Spares params ctx.height sub.entry.height := by
  obtain ⟨hr, hexact⟩ := hn.exact hsane
  have hlatest : ∀ e, (iterated n.world d).foldl laterPrice none = some e ↔ ∃ sub,
      lastFor n.log d = some sub ∧ sub.entry = e ∧ Spares params ctx.height e.height :=
    fun _ => hexact.latest hr hd
  simp only [queryPrice, bind_ok, named_ok, mapErr_ok, lookup_ok, pure_ok]
  constructor
  · rintro ⟨_, _, _, ⟨hreq, hne, rfl⟩, e, _, ⟨hfold, rfl⟩, rfl, rfl⟩
    obtain rfl := Option.some.inj hreq
    obtain ⟨sub, hlast, rfl, hspares⟩ := (hlatest e).mp hfold
    exact ⟨hne, sub, hlast, rfl, hspares⟩
  · rintro ⟨hne, sub, hlast, rfl, hspares⟩
    exact ⟨_, _, _, ⟨rfl, hne, rfl⟩, _, _, ⟨(hlatest _).mpr ⟨sub, hlast, rfl, hspares⟩, rfl⟩, rfl,
      rfl⟩

/-- The median is answered from the cache or not at all, and a median that can be computed is
the one in the cache. -/
theorem cached_median_answered (hmin : 0 < params.minSubmissions.toInt)
    (resp : QueryTWAPResponse) :
    ((∃ w, queryTWAP ctx (some ⟨d⟩) n.world = .ok resp w) ↔ d ≠ "" ∧
      ∃ data, n.world.chain.twaps.get ("twap/" ++ d) = some data ∧ resp = twapResponse data) ∧
    ∀ data w, computeTWAP ctx d n.world = .ok data w →
      n.world.chain.twaps.get ("twap/" ++ d) = some data := by
  obtain ⟨hr, hcurrent⟩ := hn.current hsane hmin hd
  have hcomputed : ∀ data w, computeTWAP ctx d n.world = .ok data w →
      n.world.chain.twaps.get ("twap/" ++ d) = some data := by
    intro data w hdata
    obtain ⟨henough, median, hmedian, rfl, -⟩ := computeTWAP_ok.mp hdata
    obtain ⟨median', hmedian', hget⟩ := hcurrent henough
    obtain rfl := Except.ok.inj (hmedian.symm.trans hmedian')
    rw [hget, twapData, hr.params_eq]
  refine ⟨?_, hcomputed⟩
  rw [queryTWAP_ok]
  constructor
  · rintro ⟨hne, ⟨data, hget, rfl⟩ | ⟨hnone, data, w, hdata, rfl⟩⟩
    · exact ⟨hne, data, hget, rfl⟩
    · -- the price would have been in the cache
      cases hnone.symm.trans (hcomputed data w hdata)
  · rintro ⟨hne, data, hget, rfl⟩
    exact ⟨hne, .inl ⟨data, hget, rfl⟩⟩

end Answers

/-! Two blocks with a price in each. -/

section Samples
open Devnet PriceFreshness

def twoBlocks : Call Node Err Unit := through (blockAt 2) [⟨blockAt 1, [priceOne]⟩] [priceOne]

def settled : Node := commit twoBlocks uzytcGenesis

theorem settled_facts : (twoBlocks uzytcGenesis).returned = some () ∧
    (lastFor settled.log "uzytc").map (fun sub => sub.entry.height.toInt) = some 2 ∧
    (settled.world.chain.twaps.get "twap/uzytc").map (fun data => data.windowEnd.toInt) =
      some 2 := by
  decide +kernel

theorem settled_committed : Committed (blockAt 2) uzytcGenesis settled :=
  ⟨[⟨blockAt 1, [priceOne]⟩], [priceOne], show Increasing [1, 2] by unfold Increasing; decide,
    ok_commit settled_facts.1⟩

theorem uzytcParams_sane : Sane uzytcParams := ⟨by decide, by decide, by decide⟩

theorem uzytc_unmixed : Unmixed uzytcParams "uzytc" :=
  unmixed_of_no_slash (by decide) _

theorem settled_price : ∃ resp w, queryPrice (some ⟨"uzytc"⟩) settled.world = .ok resp w ∧
    resp.height.toInt = 2 := by
  obtain ⟨sub, hlast, hheight⟩ := Option.map_eq_some_iff.mp settled_facts.2.1
  obtain ⟨w, hw⟩ := (last_price_answered devnet uzytcParams uzytcParams_sane treasury aliceOnly
    (blockAt 2) settled settled_committed "uzytc" uzytc_unmixed _).mpr
    ⟨by decide, sub, hlast, rfl, .inl (by decide)⟩
  exact ⟨_, w, hw, hheight⟩

theorem settled_prices : ∃ entries : List PriceEntry,
    queryAllPrices (some ⟨"uzytc", 2⟩) settled.world = .ok (entries.map priceResponse)
      settled.world ∧ ∃ e ∈ entries, e.height.toInt = 2 := by
  obtain ⟨sub, hlast, hheight⟩ := Option.map_eq_some_iff.mp settled_facts.2.1
  obtain ⟨hr, hexact⟩ := settled_committed.exact uzytcParams_sane
  obtain ⟨entries, hok, -, hmem⟩ := all_prices_answered devnet uzytcParams uzytcParams_sane treasury
    aliceOnly (blockAt 2) settled settled_committed "uzytc" uzytc_unmixed (by decide) 2
  refine ⟨entries, hok, sub.entry, (hmem _).mpr ⟨?_, .inl (by decide), sub,
    (hexact.lastFor_last hlast).2.1, rfl⟩, hheight⟩
  rw [Int64.le_iff_toInt_le, hheight]
  decide

theorem settled_median : ∃ resp w, queryTWAP (blockAt 2) (some ⟨"uzytc"⟩) settled.world =
    .ok resp w ∧ resp.windowEnd.toInt = 2 := by
  obtain ⟨data, hget, hend⟩ := Option.map_eq_some_iff.mp settled_facts.2.2
  obtain ⟨w, hw⟩ := (cached_median_answered devnet uzytcParams uzytcParams_sane treasury aliceOnly
    (blockAt 2) settled settled_committed "uzytc" uzytc_unmixed (by decide) _).1.mpr
    ⟨by decide, data, hget, rfl⟩
  exact ⟨_, w, hw, hend⟩

end Samples

end Zytherion.OracleQueries
