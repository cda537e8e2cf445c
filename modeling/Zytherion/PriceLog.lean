import Zytherion.OracleChain

/-!
# The stored entries and the submissions they come from

Two invariants of every run. `Recorded` says where everything the oracle stores
comes from: an entry under its own key from a submission, a submission from a
validator for a whitelisted denomination, a cached price of a whitelisted
denomination. `Kept` says what is never lost: within the window the entry under
a denomination and a height is the last submission made for them. It needs
parameters under which pruning stays behind the window.
-/
namespace Zytherion.PriceLog

open GoCall KeyedStore SdkMath Application ChainState OracleKeeper OracleMsgServer OracleChain

/-- The last submission for a denomination at a height. -/
def lastAt (log : List Submission) (d : String) (k : Int64) : Option Submission :=
  log.reverse.find? fun sub => decide (sub.entry.denom = d ∧ sub.entry.height = k)

section Log
variable {log : List Submission} {sub : Submission} {d : String} {k : Int64}

theorem lastAt_snoc (log : List Submission) (sub : Submission) (d : String) (k : Int64) :
    lastAt (log ++ [sub]) d k =
      if sub.entry.denom = d ∧ sub.entry.height = k then some sub else lastAt log d k := by
  rw [lastAt, List.reverse_append, List.reverse_singleton, List.singleton_append, List.find?_cons]
  split_ifs with h <;> simp [h, lastAt]

theorem lastAt_some (h : lastAt log d k = some sub) :
    sub ∈ log ∧ sub.entry.denom = d ∧ sub.entry.height = k := by
  have hmatch := List.find?_some h
  exact ⟨List.mem_reverse.mp (List.mem_of_find?_eq_some h), by simpa using hmatch⟩

theorem lastAt_of_mem (h : sub ∈ log) :
    ∃ last, lastAt log sub.entry.denom sub.entry.height = some last := by
  rw [← Option.isSome_iff_exists, lastAt, List.find?_isSome]
  exact ⟨sub, List.mem_reverse.mpr h, by simp⟩

end Log

variable (A : App) (params : OracleParams)

/-- Where the oracle's stores come from. -/
structure Recorded (n : Node) : Prop where
  params_eq : paramsOf n.world = params
  stored : ∀ k e, n.world.prices.get k = some e →
    k = priceKey e.denom e.height ∧ ∃ sub ∈ n.log, sub.entry = e
  logged : ∀ sub ∈ n.log, sub.entry.denom ∈ params.whitelistedDenoms ∧
    0 < sub.entry.priceUSD.raw ∧ isValidatorSubmitter A sub.staking sub.submitter = true
  cached : ∀ d data, n.world.chain.twaps.get ("twap/" ++ d) = some data →
    d ∈ params.whitelistedDenoms

section Recorded
variable {A params} {n : Node} {ctx : Ctx A}

/-- Another cache with prices of whitelisted denominations. -/
theorem Recorded.recache {w' : World} (hn : Recorded A params n) (hcache : CacheOnly n.world w')
    (hkept : ∀ d ∉ params.whitelistedDenoms,
      w'.chain.twaps.get ("twap/" ++ d) = n.world.chain.twaps.get ("twap/" ++ d)) :
    Recorded A params ⟨w', n.log⟩ := by
  refine ⟨hcache.paramsOf.trans hn.params_eq, ?_, hn.logged, ?_⟩
  · intro k e hk
    rw [hcache.prices] at hk
    exact hn.stored k e hk
  · intro d data hd
    by_contra hout
    rw [hkept d hout] at hd
    exact hout (hn.cached d data hd)

theorem Recorded.refresh {w' : World} (hn : Recorded A params n)
    (h : beginBlock ctx n.world = .ok () w') : Recorded A params ⟨w', n.log⟩ := by
  rw [beginBlock_ok, hn.params_eq] at h
  obtain ⟨hcache, -, hkept⟩ := refreshAll_ok h
  exact hn.recache hcache hkept

/-- One more entry and the submission it comes from. -/
theorem Recorded.store (sub : Submission) (hn : Recorded A params n)
    (hsub : sub.entry.denom ∈ params.whitelistedDenoms ∧ 0 < sub.entry.priceUSD.raw ∧
      isValidatorSubmitter A sub.staking sub.submitter = true) :
    Recorded A params ⟨OracleMsgServer.stored n.world sub.entry, n.log ++ [sub]⟩ := by
  refine ⟨hn.params_eq, ?_, ?_, hn.cached⟩
  · intro k e hk
    rw [OracleMsgServer.stored, Store.get_set] at hk
    split_ifs at hk with hkey
    · obtain rfl := Option.some.inj hk
      exact ⟨hkey, sub, List.mem_append_right _ (List.mem_singleton_self _), rfl⟩
    · obtain ⟨hkey, sub', hsub', rfl⟩ := hn.stored k e hk
      exact ⟨hkey, sub', List.mem_append_left _ hsub', rfl⟩
  · intro sub' hsub'
    rcases List.mem_append.mp hsub' with hsub' | hsub'
    · exact hn.logged sub' hsub'
    · rw [List.mem_singleton.mp hsub']
      exact hsub

theorem Recorded.prune (hn : Recorded A params n) (height : Int64) :
    Recorded A params ⟨pruned n.world height, n.log⟩ := by
  refine ⟨(paramsOf_pruned ..).trans hn.params_eq, ?_, hn.logged, ?_⟩
  · intro k e hk
    rw [get_pruned, Option.filter_eq_some_iff] at hk
    exact hn.stored k e hk.1
  · intro d data hd
    rw [pruned_eq] at hd
    exact hn.cached d data hd

/-- The world an accepted submission refreshes the price in. -/
theorem Recorded.accept {w' : World} {msg : MsgSubmitPrice} {submitter : AccAddress} {price : Dec}
    (hn : Recorded A params n) (h : Accepted ctx msg submitter price n.world w') :
    Recorded A params ⟨OracleMsgServer.stored n.world (msg.entry ctx price),
      n.log ++ [⟨msg.entry ctx price, submitter, n.world.staking⟩]⟩ :=
  hn.store ⟨msg.entry ctx price, submitter, n.world.staking⟩
    ⟨hn.params_eq ▸ h.whitelisted, h.positive, h.validator⟩

theorem Recorded.deliver {n' : Node} (h : Delivered ctx n n') (hn : Recorded A params n) :
    Recorded A params n' := by
  cases h with
  | accepted msg submitter price w' h =>
      have hstored := hn.accept h
      have hwhite := hn.params_eq ▸ h.whitelisted
      obtain ⟨m, hm, rfl⟩ := h.result
      have hrefreshed := hstored.recache hm.cacheOnly fun d hd =>
        hm.get_ne fun heq => hd (heq ▸ hwhite)
      exact hrefreshed.prune ctx.height
  | apart w' hprices hparams htwaps =>
      refine ⟨hparams.trans hn.params_eq, ?_, hn.logged, ?_⟩
      · rw [hprices]
        exact hn.stored
      · rw [htwaps]
        exact hn.cached

variable (A params) in
theorem recorded_invariant : Invariant A fun _ n => Recorded A params n where
  refresh _ hn h := hn.refresh h
  deliver h hn := hn.deliver h
  prune hn := hn.prune _

theorem recorded_genesis (bank : Bank.BankGenesis) (staking : ValidatorSet) :
    Recorded A params (genesis A bank params staking) := by
  rw [genesis_eq]
  refine ⟨rfl, by simp, by simp, ?_⟩
  rw [genesis_twaps]
  simp

end Recorded

/-- Parameters under which nothing wraps around: pruning stays behind the window. -/
structure Sane : Prop where
  window_nonneg : 0 ≤ params.twapWindowBlocks.toInt
  age_nonneg : 0 ≤ params.maxPriceAge.toInt
  fits : params.twapWindowBlocks.toInt + params.maxPriceAge.toInt < 2 ^ 63

section Heights
variable {params} {h k : Int64}

theorem windowStart_toInt (hwindow : 0 ≤ params.twapWindowBlocks.toInt) (hh : 0 ≤ h.toInt) :
    (windowStart params h).toInt = max 0 (h.toInt - params.twapWindowBlocks.toInt) := by
  have hle := Int64.toInt_lt h
  have hle' := Int64.toInt_lt params.twapWindowBlocks
  have hsub : (h - params.twapWindowBlocks).toInt = h.toInt - params.twapWindowBlocks.toInt :=
    toInt_sub_eq (by omega) (by omega)
  simp only [windowStart, Int64.lt_iff_toInt_lt, hsub, Int64.toInt_zero]
  split_ifs with hneg
  · rw [Int64.toInt_zero]
    omega
  · rw [hsub]
    omega

theorem windowStart_mono (hwindow : 0 ≤ params.twapWindowBlocks.toInt) (hh : 0 ≤ h.toInt)
    (hle : h ≤ k) : windowStart params h ≤ windowStart params k := by
  rw [Int64.le_iff_toInt_le] at hle ⊢
  rw [windowStart_toInt hwindow hh, windowStart_toInt hwindow (by omega)]
  omega

/-- Pruning leaves the whole window. -/
theorem Sane.retained (hsane : Sane params) (hh : 0 ≤ h.toInt) {e : PriceEntry}
    (he : windowStart params h ≤ e.height) : OracleMsgServer.retained params h e = true := by
  obtain ⟨hwindow, hage, hfits⟩ := hsane
  have hle := Int64.toInt_lt h
  have hsub : (h - params.twapWindowBlocks).toInt = h.toInt - params.twapWindowBlocks.toInt :=
    toInt_sub_eq (by omega) (by omega)
  have hcut : (cutoff params h).toInt =
      h.toInt - params.twapWindowBlocks.toInt - params.maxPriceAge.toInt := by
    rw [cutoff, toInt_sub_eq (by omega) (by omega), hsub]
  rw [Int64.le_iff_toInt_le, windowStart_toInt hwindow hh] at he
  simp only [OracleMsgServer.retained, Bool.or_eq_true, decide_eq_true_eq, Bool.not_eq_true',
    decide_eq_false_iff_not, Int64.le_iff_toInt_le, Int64.lt_iff_toInt_lt, hcut, Int64.toInt_zero]
  omega

end Heights

/-- Within the window the last submission is the one that is stored. -/
structure Kept (h : Int64) (n : Node) : Prop where
  height_nonneg : 0 ≤ h.toInt
  last : ∀ d k, windowStart params h ≤ k →
    n.world.prices.get (priceKey d k) = (lastAt n.log d k).map Submission.entry

section Kept
variable {A params} {n : Node} {ctx : Ctx A} {h : Int64}

theorem priceKey_eq_iff {d e : String} {k l : Int64} :
    priceKey d k = priceKey e l ↔ d = e ∧ k = l := by
  constructor
  · exact priceKey_inj
  · rintro ⟨rfl, rfl⟩
    rfl

theorem Kept.refresh {w' : World} (hsane : Sane params) (hr : Recorded A params n)
    (hn : Kept params h n) (hlt : h < ctx.height) (hbegin : beginBlock ctx n.world = .ok () w') :
    Kept params ctx.height ⟨w', n.log⟩ := by
  rw [beginBlock_ok, hr.params_eq] at hbegin
  obtain ⟨hcache, -⟩ := refreshAll_ok hbegin
  have hheight := hn.height_nonneg
  have hlt' := Int64.lt_iff_toInt_lt.mp hlt
  refine ⟨by omega, fun d k hk => ?_⟩
  rw [hcache.prices]
  exact hn.last d k (Int64.le_trans
    (windowStart_mono hsane.window_nonneg hheight (Int64.le_of_lt hlt)) hk)

/-- Within the window pruning changes no entry that stands under its own height. -/
theorem filter_retained {o : Option PriceEntry} {k : Int64} (hsane : Sane params)
    (hh : 0 ≤ h.toInt) (hk : windowStart params h ≤ k) (ho : ∀ e, o = some e → e.height = k) :
    o.filter (retained params h) = o := by
  cases o with
  | none => rfl
  | some e =>
      have hkeep := hsane.retained hh (e := e) (by rw [ho e rfl]; exact hk)
      simp [hkeep]

theorem Kept.entry_height (hn : Kept params h n) {d : String} {k : Int64}
    (hk : windowStart params h ≤ k) {e : PriceEntry}
    (he : n.world.prices.get (priceKey d k) = some e) : e.height = k := by
  rw [hn.last d k hk] at he
  obtain ⟨sub, hsub, rfl⟩ := Option.map_eq_some_iff.mp he
  exact (lastAt_some hsub).2.2

theorem Kept.deliver {n' : Node} (hsane : Sane params) (hr : Recorded A params n)
    (hn : Kept params ctx.height n) (h : Delivered ctx n n') : Kept params ctx.height n' := by
  cases h with
  | accepted msg submitter price w' h =>
      refine ⟨hn.height_nonneg, fun d k hk => ?_⟩
      rw [h.get_prices, hr.params_eq, lastAt_snoc]
      simp only [priceKey_eq_iff, MsgSubmitPrice.entry, @eq_comm _ msg.denom,
        @eq_comm _ ctx.height]
      split_ifs with hkey
      · exact filter_retained hsane hn.height_nonneg hk fun e he => by
          rw [← Option.some.inj he, hkey.2]
      · rw [filter_retained hsane hn.height_nonneg hk fun e he => hn.entry_height hk he]
        exact hn.last d k hk
  | apart w' hprices hparams htwaps =>
      refine ⟨hn.height_nonneg, fun d k hk => ?_⟩
      rw [hprices]
      exact hn.last d k hk

theorem Kept.prune (hsane : Sane params) (hr : Recorded A params n) (hn : Kept params h n) :
    Kept params h ⟨pruned n.world h, n.log⟩ := by
  refine ⟨hn.height_nonneg, fun d k hk => ?_⟩
  rw [get_pruned, hr.params_eq,
    filter_retained hsane hn.height_nonneg hk fun e he => hn.entry_height hk he]
  exact hn.last d k hk

variable (A) in
theorem kept_invariant (hsane : Sane params) :
    Invariant A fun h n => Recorded A params n ∧ Kept params h n where
  refresh hlt hn h := ⟨hn.1.refresh h, hn.2.refresh hsane hn.1 hlt h⟩
  deliver h hn := ⟨hn.1.deliver h, hn.2.deliver hsane hn.1 h⟩
  prune hn := ⟨hn.1.prune _, hn.2.prune hsane hn.1⟩

variable (A params) in
theorem kept_genesis (bank : Bank.BankGenesis) (staking : ValidatorSet) :
    Kept params 0 (genesis A bank params staking) :=
  ⟨le_refl _, fun _ _ _ => rfl⟩

end Kept

/-- No whitelisted denomination continues `d` after a slash, so that no other
entries stand under the prefix of `d`. -/
def Unmixed (d : String) : Prop := ∀ e ∈ params.whitelistedDenoms, ∀ rest, e ≠ d ++ "/" ++ rest

section Window
variable {A params} {n : Node} {d : String} {h fromHeight : Int64} {e : PriceEntry}

theorem unmixed_of_no_slash (hno : ∀ e ∈ params.whitelistedDenoms, '/' ∉ e.toList) (d : String) :
    Unmixed params d := by
  rintro e he rest rfl
  exact hno _ he (by simp [String.toList_append])

theorem Recorded.mem_priceHistory (hr : Recorded A params n) :
    e ∈ priceHistory n.world d fromHeight ↔
      n.world.prices.get (priceKey e.denom e.height) = some e ∧
        (historyKey d).toList.isPrefixOf (priceKey e.denom e.height).toList = true ∧
        fromHeight ≤ e.height := by
  rw [priceHistory, List.mem_filter, Store.mem_select, decide_eq_true_eq]
  constructor
  · rintro ⟨⟨k, hk, hprefix⟩, hle⟩
    obtain ⟨rfl, -⟩ := hr.stored k e hk
    exact ⟨hk, hprefix, hle⟩
  · rintro ⟨hk, hprefix, hle⟩
    exact ⟨⟨_, hk, hprefix⟩, hle⟩

/-- An entry under the prefix of a denomination is for it or for one that
continues it after a slash. -/
theorem Recorded.history_under (hr : Recorded A params n)
    (he : e ∈ priceHistory n.world d fromHeight) :
    e.denom = d ∨ ∃ rest, e.denom = d ++ "/" ++ rest :=
  historyKey_isPrefixOf (hr.mem_priceHistory.mp he).2.1

theorem Recorded.history_logged (hr : Recorded A params n)
    (he : e ∈ priceHistory n.world d fromHeight) : ∃ sub ∈ n.log, sub.entry = e :=
  (hr.stored _ e (hr.mem_priceHistory.mp he).1).2

theorem Recorded.history_nodup (hr : Recorded A params n) :
    (priceHistory n.world d fromHeight).Nodup := by
  apply List.Nodup.filter
  refine Store.pairwise_select fun k l e e' hlt he he' heq => ?_
  rw [(hr.stored k e he).1, (hr.stored l e' he').1, heq] at hlt
  exact lt_irrefl _ hlt

theorem Recorded.history_denom (hr : Recorded A params n) (hd : Unmixed params d)
    (he : e ∈ priceHistory n.world d fromHeight) : e.denom = d := by
  obtain ⟨sub, hsub, rfl⟩ := hr.history_logged he
  rcases hr.history_under he with heq | ⟨rest, hrest⟩
  · exact heq
  · exact (hd _ (hr.logged sub hsub).1 rest hrest).elim

theorem Recorded.history_heights_nodup (hr : Recorded A params n) (hd : Unmixed params d) :
    ((priceHistory n.world d fromHeight).map PriceEntry.height).Nodup := by
  refine hr.history_nodup.map_on fun e he e' he' hheight => ?_
  have hkey := (hr.mem_priceHistory.mp he).1
  rw [hr.history_denom hd he, hheight, ← hr.history_denom hd he',
    (hr.mem_priceHistory.mp he').1] at hkey
  exact (Option.some.inj hkey).symm

/-- The window holds exactly the last submissions of its heights. -/
theorem Kept.mem_window (hk : Kept params h n) (hr : Recorded A params n) (hd : Unmixed params d) :
    e ∈ windowEntries n.world d h ↔ windowStart params h ≤ e.height ∧
      ∃ sub, lastAt n.log d e.height = some sub ∧ sub.entry = e := by
  rw [windowEntries, hr.params_eq]
  constructor
  · intro he
    obtain ⟨hget, -, hle⟩ := hr.mem_priceHistory.mp he
    rw [hr.history_denom hd he, hk.last d _ hle] at hget
    exact ⟨hle, Option.map_eq_some_iff.mp hget⟩
  · rintro ⟨hle, sub, hsub, rfl⟩
    obtain ⟨-, hdenom, -⟩ := lastAt_some hsub
    refine hr.mem_priceHistory.mpr ⟨?_, ?_, hle⟩
    · rw [hdenom, hk.last d _ hle, hsub]
      rfl
    · rw [hdenom]
      exact isPrefixOf_priceKey ..

end Window

end Zytherion.PriceLog
