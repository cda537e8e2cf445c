import Zytherion.PriceMedian
import Zytherion.PricePruning
import Zytherion.GenesisExport

/-!
# Denominations and each other's prices

What the oracle answers about a denomination is read off the entries under its
prefix. Submissions for other denominations reach these entries in two ways. A
denomination that continues another one after a slash stands under the prefix of
both. And every accepted submission prunes the old entries of all denominations.
Whatever the parameters, these are the only two ways.
-/
namespace Zytherion.PriceIsolation

open GoCall KeyedStore SdkMath Application ChainState Bank StablecoinKeeper OracleKeeper
open OracleMsgServer OracleChain PriceLog PriceMedian PricePruning GenesisExport

section Runs
variable {A : App}

/-- A submission and the block it is made in. -/
abbrev Input (A : App) : Type := Ctx A × MsgSubmitPrice

def submitted (w : World) (i : Input A) : World := commit (i.2.exec i.1) w

/-- Heights above zero that do not decrease. -/
def Ordered (inputs : List (Input A)) : Prop :=
  (∀ i ∈ inputs, 0 < i.1.height.toInt) ∧
    inputs.Pairwise fun i j => i.1.height.toInt ≤ j.1.height.toInt

end Runs

/-- The oracle answers the same about a denomination. -/
structure SameAnswers (d : String) (w v : World) : Prop where
  history : ∀ fromHeight, priceHistory v d fromHeight = priceHistory w d fromHeight
  latest : getLatestPrice v d = getLatestPrice w d
  twap : ∀ (A : App) (ctx : Ctx A),
    answer (computeTWAP ctx d v) = answer (computeTWAP ctx d w)

/-- After any run of submissions, one for another denomination changes no answer. -/
def Isolated (params : OracleParams) (d : String) : Prop :=
  ∀ (A : App) (bank : BankGenesis) (staking : ValidatorSet) (inputs : List (Input A))
    (next : Input A), Ordered (inputs ++ [next]) → next.2.denom ≠ d →
      SameAnswers d (run submitted (genesis A bank params staking).world inputs)
        (run submitted (genesis A bank params staking).world (inputs ++ [next]))

section Params
variable (params : OracleParams)

/-- A submission at a height can be accepted: its own entry is in the window, or a
window without entries is left alone. -/
def Admits (h : Int64) : Prop := windowStart params h ≤ h ∨ 0 < params.minSubmissions.toInt

/-- Pruning at height `h` leaves an entry of height `k`. -/
def Spares (h k : Int64) : Prop := cutoff params h ≤ 0 ∨ cutoff params h ≤ k

/-- A submission for another denomination can prune an entry. -/
def PrunedByOthers (d : String) : Prop :=
  d ∈ params.whitelistedDenoms ∧ d ≠ "" ∧ (∃ e ∈ params.whitelistedDenoms, e ≠ "" ∧ e ≠ d) ∧
    ∃ k h : Int64, 0 < k.toInt ∧ k ≤ h ∧ Admits params k ∧ Spares params k k ∧ Admits params h ∧
      ¬Spares params h k

end Params

theorem retained_iff {params : OracleParams} {h : Int64} {e : PriceEntry} :
    retained params h e = true ↔ Spares params h e.height := by
  simp [retained, Spares, Int64.not_lt]

section Traces
variable {A : App} {params : OracleParams} {top : Int64} {w w' : World} {d : String}

/-- Every entry stands under its own key and was accepted and kept at its height. -/
structure Traced (params : OracleParams) (top : ℤ) (w : World) : Prop where
  params_eq : paramsOf w = params
  source : ∀ k e, w.prices.get k = some e → k = priceKey e.denom e.height ∧
    e.denom ∈ params.whitelistedDenoms ∧ e.denom ≠ "" ∧ 0 < e.height.toInt ∧
      e.height.toInt ≤ top ∧ Admits params e.height ∧ Spares params e.height e.height

theorem Traced.mono {a b : ℤ} (h : Traced params a w) (hab : a ≤ b) : Traced params b w := by
  refine ⟨h.params_eq, fun k e hk => ?_⟩
  obtain ⟨hkey, hwhite, hname, hpos, hle, hrest⟩ := h.source k e hk
  exact ⟨hkey, hwhite, hname, hpos, hle.trans hab, hrest⟩

theorem traced_genesis (A : App) (bank : BankGenesis) (staking : ValidatorSet) (top : ℤ) :
    Traced params top (genesis A bank params staking).world := by
  rw [genesis_eq]
  exact ⟨rfl, by simp⟩

section Accepted
variable {ctx : Ctx A} {msg : MsgSubmitPrice} {submitter : AccAddress} {price : Dec}

/-- A submission at a height that admits none would take the median of nothing. -/
theorem Traced.admits (hw : Traced params ctx.height.toInt w)
    (h : Accepted ctx msg submitter price w w') : Admits params ctx.height := by
  by_contra hno
  obtain ⟨hstart, hmin⟩ := not_or.mp hno
  obtain ⟨m, hm, -⟩ := h.result
  have hparams : paramsOf (stored w (msg.entry ctx price)) = params := hw.params_eq
  have hempty : windowEntries (stored w (msg.entry ctx price)) msg.denom ctx.height = [] := by
    rw [List.eq_nil_iff_forall_not_mem]
    intro e he
    rw [windowEntries, priceHistory, List.mem_filter, hparams, decide_eq_true_eq] at he
    obtain ⟨k, hk, -⟩ := (Store.mem_select ..).mp he.1
    have hle : e.height ≤ ctx.height := by
      rw [stored, Store.get_set] at hk
      split_ifs at hk with hkey
      · rw [← Option.some.inj hk]
        exact Int64.le_refl _
      · exact Int64.le_iff_toInt_le.mpr (hw.source k e hk).2.2.2.2.1
    exact hstart (Int64.le_trans he.2 hle)
  cases hm with
  | skipped few =>
      apply few
      rw [Enough, hempty, hparams, List.length_nil]
      omega
  | replaced _ median computed =>
      rw [hempty] at computed
      exact medianPrice_nil median computed

theorem Traced.accept {top : ℤ} (hw : Traced params top w) (htop : top ≤ ctx.height.toInt)
    (hpos : 0 < ctx.height.toInt) (hname : msg.denom ≠ "")
    (h : Accepted ctx msg submitter price w w') : Traced params ctx.height.toInt w' := by
  have hadmits := (hw.mono htop).admits h
  refine ⟨?_, fun k e hk => ?_⟩
  · obtain ⟨m, hm, rfl⟩ := h.result
    rw [paramsOf_pruned, hm.cacheOnly.paramsOf]
    exact hw.params_eq
  · rw [h.get_prices, hw.params_eq, Option.filter_eq_some_iff, retained_iff] at hk
    obtain ⟨hk, hspared⟩ := hk
    split_ifs at hk with hkey
    · obtain rfl := Option.some.inj hk
      exact ⟨hkey, hw.params_eq ▸ h.whitelisted, hname, hpos, le_refl _, hadmits, hspared⟩
    · exact (hw.mono htop).source k e hk

/-- Storing an entry and refreshing a price leave a selection the entry's key is not
part of. -/
theorem select_stored {q : String → Bool} {m : World}
    (hm : Refreshed ctx msg.denom (stored w (msg.entry ctx price)) m)
    (hkey : q (priceKey msg.denom ctx.height) = false) :
    m.prices.select q = w.prices.select q := by
  rw [hm.cacheOnly.prices, stored]
  exact Store.select_set_of_not hkey

/-- Pruning leaves a selection of entries that it spares. -/
theorem select_pruned {q : String → Bool}
    (hspared : ∀ e ∈ w.prices.select q, Spares (paramsOf w) top e.height) :
    (pruned w top).prices.select q = w.prices.select q := by
  unfold pruned
  split_ifs with hnone
  · rfl
  · rw [Store.select_discard, List.filter_eq_self]
    intro e he
    simpa [Int64.not_lt] using (hspared e he).resolve_left hnone

/-- The key of another denomination is not under the prefix of one that none
continues. -/
theorem notPrefix_of_unmixed (hunmixed : Unmixed params d) {e : String}
    (hwhite : e ∈ params.whitelistedDenoms) (hne : e ≠ d) (h : Int64) :
    (historyKey d).toList.isPrefixOf (priceKey e h).toList = false := by
  rw [Bool.eq_false_iff]
  intro hkey
  rcases historyKey_isPrefixOf hkey with heq | ⟨rest, heq⟩
  · exact hne heq
  · exact hunmixed e hwhite rest heq

end Accepted

theorem Ordered.init {inputs : List (Input A)} {next : Input A} (h : Ordered (inputs ++ [next])) :
    Ordered inputs ∧ 0 < next.1.height.toInt ∧
      ∀ i ∈ inputs, i.1.height.toInt ≤ next.1.height.toInt := by
  obtain ⟨hpos, hle⟩ := h
  obtain ⟨hinit, -, hcross⟩ := List.pairwise_append.mp hle
  exact ⟨⟨fun i hi => hpos i (List.mem_append_left _ hi), hinit⟩, hpos next (by simp),
    fun i hi => hcross i hi next (by simp)⟩

theorem traced_run (params : OracleParams) (bank : BankGenesis) (staking : ValidatorSet)
    {inputs : List (Input A)} {next : Input A} (h : Ordered (inputs ++ [next])) :
    Traced params next.1.height.toInt
      (run submitted (genesis A bank params staking).world inputs) := by
  induction inputs using List.reverseRecOn generalizing next with
  | nil => exact traced_genesis A bank staking _
  | append_singleton inputs i ih =>
      obtain ⟨hinit, -, hle⟩ := h.init
      have hi := ih hinit
      obtain ⟨-, hpos, -⟩ := hinit.init
      rw [run_snoc]
      refine Traced.mono ?_ (hle i (by simp))
      apply commit_preserves hi
      intro _ w' hok
      obtain ⟨hname, submitter, price, haccepted⟩ := exec_ok_iff.mp hok
      exact hi.accept (le_refl _) hpos hname haccepted

theorem SameAnswers.of_select (hparams : paramsOf w' = paramsOf w)
    (hselect : w'.prices.select (fun key => (historyKey d).toList.isPrefixOf key.toList) =
      w.prices.select fun key => (historyKey d).toList.isPrefixOf key.toList) :
    SameAnswers d w w' := by
  have hhistory : ∀ fromHeight, priceHistory w' d fromHeight = priceHistory w d fromHeight := by
    intro fromHeight
    rw [priceHistory, priceHistory, hselect]
  refine ⟨hhistory, ?_, fun A ctx => ?_⟩
  · rw [getLatestPrice, getLatestPrice, hselect]
  · rw [answer_computeTWAP, answer_computeTWAP, windowEntries, windowEntries, hparams, hhistory]

/-- Nothing reaches a denomination that no other one continues and no other one's
submission can prune. -/
theorem isolated_of (hunmixed : Unmixed params d) (hpruned : ¬PrunedByOthers params d) :
    Isolated params d := by
  intro A bank staking inputs next hordered hne
  have hw := traced_run params bank staking hordered
  rw [run_snoc]
  rcases commit_cases (next.2.exec next.1)
    (run submitted (genesis A bank params staking).world inputs) with ⟨_, hok⟩ | ⟨-, hsame⟩
  · obtain ⟨hname, submitter, price, haccepted⟩ := exec_ok_iff.mp hok
    have hwhite : next.2.denom ∈ params.whitelistedDenoms := hw.params_eq ▸ haccepted.whitelisted
    have hadmits := hw.admits haccepted
    have hafter := hw.accept (le_refl _) hordered.init.2.1 hname haccepted
    refine SameAnswers.of_select (hafter.params_eq.trans hw.params_eq.symm) ?_
    obtain ⟨m, hm, hresult⟩ := haccepted.result
    have hstored := select_stored (q := fun key => (historyKey d).toList.isPrefixOf key.toList) hm
      (notPrefix_of_unmixed hunmixed hwhite hne next.1.height)
    rw [submitted, hresult, select_pruned, hstored]
    intro e he
    rw [hstored] at he
    obtain ⟨k, hk, hkey⟩ := (Store.mem_select ..).mp he
    obtain ⟨rfl, hewhite, hename, hpos, hle, headmits, hespared⟩ := hw.source k e hk
    obtain rfl : e.denom = d := by
      by_contra hother
      rw [notPrefix_of_unmixed hunmixed hewhite hother] at hkey
      cases hkey
    rw [hm.cacheOnly.paramsOf, show paramsOf (stored _ _) = params from hw.params_eq]
    by_contra hspared
    exact hpruned ⟨hewhite, hename, ⟨_, hwhite, hname, hne⟩, e.height, next.1.height, hpos,
      Int64.le_iff_toInt_le.mpr hle, headmits, hespared, hadmits, hspared⟩
  · rw [submitted, hsame]
    exact .of_select rfl rfl

end Traces

section Units
variable {A : App} {ctx : Ctx A} {params : OracleParams} {w : World} {d : String}

/-- All prices are one unit in the last place. -/
def Units (w : World) : Prop := ∀ k e, w.prices.get k = some e → e.priceUSD = ⟨1⟩

theorem Units.refresh (hw : Units w) (ctx : Ctx A) (d : String)
    (hne : Enough w d ctx.height → windowEntries w d ctx.height ≠ []) :
    ∃ m, Refreshed ctx d w m := by
  by_cases henough : Enough w d ctx.height
  · have hone : ∀ p ∈ (windowEntries w d ctx.height).map PriceEntry.priceUSD, p = ⟨1⟩ := by
      intro p hp
      obtain ⟨e, he, rfl⟩ := List.mem_map.mp hp
      obtain ⟨k, hk⟩ := mem_windowEntries he
      exact hw k e hk
    obtain ⟨m, hm⟩ : ∃ m,
        medianPrice ((windowEntries w d ctx.height).map PriceEntry.priceUSD) = .ok m := by
      refine medianPrice_returns (by simpa using hne henough) (fun p hp => ?_) ?_
      · rw [hone p hp]
        decide
      · refine List.pairwise_of_forall_mem_list fun p hp q hq => ?_
        rw [hone p hp, hone q hq, SumFits]
        decide
    exact ⟨_, .replaced henough m hm⟩
  · exact ⟨w, .skipped henough⟩

/-- Among such prices everything can be computed, and one more is accepted wherever
one can be. -/
theorem Units.accept (hw : Units w) (hparams : paramsOf w = params) {msg : MsgSubmitPrice}
    {submitter : AccAddress} (haddress : A.accAddressFromBech32 msg.submitter = .ok submitter)
    (hvalidator : isValidatorSubmitter A w.staking submitter = true)
    (hwhite : msg.denom ∈ params.whitelistedDenoms) (hprice : msg.priceUsd = some ⟨1⟩)
    (hadmits : Admits params ctx.height) : ∃ w', Accepted ctx msg submitter ⟨1⟩ w w' := by
  have hunits : Units (stored w (msg.entry ctx ⟨1⟩)) := by
    intro k e hk
    rw [stored, Store.get_set] at hk
    split_ifs at hk
    · rw [← Option.some.inj hk]
      rfl
    · exact hw k e hk
  have hparams' : paramsOf (stored w (msg.entry ctx ⟨1⟩)) = params := hparams
  obtain ⟨m, hm⟩ := hunits.refresh ctx msg.denom fun henough hnil => by
    rcases hadmits with hstart | hmin
    · have hmem : msg.entry ctx ⟨1⟩ ∈
          windowEntries (stored w (msg.entry ctx ⟨1⟩)) msg.denom ctx.height := by
        rw [windowEntries, priceHistory, List.mem_filter, Store.mem_select, hparams']
        exact ⟨⟨priceKey msg.denom ctx.height, Store.get_set_self .., isPrefixOf_priceKey ..⟩,
          decide_eq_true hstart⟩
      rw [hnil] at hmem
      cases hmem
    · rw [Enough, hnil, List.length_nil, hparams'] at henough
      omega
  exact ⟨pruned m ctx.height, haddress, hvalidator, hparams ▸ hwhite, hprice, by decide, m, hm, rfl⟩

end Units

section Leaks
open Devnet
variable {params : OracleParams} {w : World} {d e : String} {h k : Int64}

def oneUnit (d : String) : MsgSubmitPrice := ⟨devnet.text alice, d, some ⟨1⟩⟩

theorem alice_submits : isValidatorSubmitter devnet aliceOnly alice = true := by
  decide +kernel

theorem oneUnit_accepted (hw : Units w) (hparams : paramsOf w = params)
    (hstaking : w.staking = aliceOnly) (hwhite : d ∈ params.whitelistedDenoms)
    (hadmits : Admits params h) : ∃ w', Accepted (blockAt h) (oneUnit d) alice ⟨1⟩ w w' :=
  hw.accept hparams (devnet.accAddressFromBech32_text alice)
    (by rw [hstaking]; exact alice_submits) hwhite rfl hadmits

/-- The world one such submission leaves. -/
theorem submitted_oneUnit {w' : World} (hname : d ≠ "")
    (haccepted : Accepted (blockAt h) (oneUnit d) alice ⟨1⟩ w w') :
    submitted w (blockAt h, oneUnit d) = w' :=
  commit_ok ((exec_ok_iff (u := ())).mpr ⟨hname, alice, ⟨1⟩, haccepted⟩)

theorem Units.accepted {w' : World} (hw : Units w)
    (haccepted : Accepted (blockAt h) (oneUnit d) alice ⟨1⟩ w w') :
    Units w' ∧ paramsOf w' = paramsOf w ∧ w'.staking = w.staking := by
  refine ⟨fun k e hk => ?_, ?_⟩
  · rw [haccepted.get_prices, Option.filter_eq_some_iff] at hk
    obtain ⟨hk, -⟩ := hk
    split_ifs at hk
    · rw [← Option.some.inj hk]
      rfl
    · exact hw k e hk
  · obtain ⟨m, hm, rfl⟩ := haccepted.result
    rw [paramsOf_pruned, pruned_eq, hm.cacheOnly.paramsOf, hm.cacheOnly]
    exact ⟨rfl, rfl⟩

/-- Its own entry stands in the history of every denomination it continues, unless
it was pruned at once. -/
theorem mem_history_accepted {w' : World}
    (haccepted : Accepted (blockAt h) (oneUnit e) alice ⟨1⟩ w w')
    (hspared : Spares (paramsOf w) h h)
    (hkey : (historyKey d).toList.isPrefixOf (priceKey e h).toList = true) :
    (oneUnit e).entry (blockAt h) ⟨1⟩ ∈ priceHistory w' d h := by
  rw [priceHistory, List.mem_filter, Store.mem_select]
  refine ⟨⟨priceKey e h, ?_, hkey⟩, decide_eq_true (Int64.le_refl h)⟩
  rw [haccepted.get_prices, Option.filter_eq_some_iff]
  exact ⟨if_pos rfl, retained_iff.mpr hspared⟩

theorem isPrefixOf_continued (d rest : String) (h : Int64) :
    (historyKey d).toList.isPrefixOf (priceKey (d ++ "/" ++ rest) h).toList = true := by
  rw [List.isPrefixOf_iff_prefix, priceKey_toList]
  refine ⟨rest.toList ++ '/' :: (toString h.toInt).toList, ?_⟩
  simp [historyKey, String.toList_append]

theorem genesis_units (params : OracleParams) :
    Units (genesis devnet treasury params aliceOnly).world := by
  rw [genesis_eq]
  intro k e hk
  cases hk

/-- Pruning with sane parameters stays behind the window. -/
theorem cutoff_le_of_sane (hsane : Sane params) (hh : 0 ≤ h.toInt) :
    cutoff params h ≤ windowStart params h := by
  have hexact := cutoff_exact hsane.window_nonneg hsane.age_nonneg hh (by
    have := hsane.fits
    omega)
  have hage := hsane.age_nonneg
  rw [Int64.le_iff_toInt_le, windowStart_toInt hsane.window_nonneg hh, hexact]
  omega

theorem le_maxValue (x : Int64) : x ≤ Int64.maxValue := by
  have hlt := x.toInt_lt
  rw [Int64.le_iff_toInt_le, Int64.toInt_maxValue]
  omega

/-- At the largest height every submission is accepted and kept. -/
theorem unmixed_of_isolated (hisolated : Isolated params d) : Unmixed params d := by
  rintro _ hwhite rest rfl
  have hname : d ++ "/" ++ rest ≠ "" := by
    intro heq
    simpa [String.toList_append] using congrArg String.toList heq
  have hne : d ++ "/" ++ rest ≠ d := by
    intro heq
    simpa [String.toList_append] using congrArg String.toList heq
  obtain ⟨w', haccepted⟩ := oneUnit_accepted (h := .maxValue) (genesis_units params) rfl rfl hwhite
    (.inl (le_maxValue _))
  have hordered : Ordered ([] ++ [(blockAt .maxValue, oneUnit (d ++ "/" ++ rest))]) := by
    refine ⟨fun i hi => ?_, List.pairwise_singleton ..⟩
    rw [List.mem_singleton.mp hi]
    show 0 < Int64.maxValue.toInt
    rw [Int64.toInt_maxValue]
    norm_num
  have hsame := (hisolated devnet treasury aliceOnly [] _ hordered hne).history .maxValue
  rw [List.nil_append, run_cons, run_nil, run_nil, submitted_oneUnit hname haccepted] at hsame
  have hmem := mem_history_accepted haccepted (.inr (le_maxValue _)) (isPrefixOf_continued d rest _)
  rw [hsame, priceHistory, List.mem_filter, Store.mem_select, genesis_eq] at hmem
  obtain ⟨⟨key, hkey, -⟩, -⟩ := hmem
  cases hkey

theorem not_prunedByOthers_of_isolated (hisolated : Isolated params d) :
    ¬PrunedByOthers params d := by
  rintro ⟨hd, hdname, ⟨e, he, hename, hne⟩, k, h, hpos, hle, hadmits, hkept, hadmits', hnot⟩
  obtain ⟨w₁, hfirst⟩ := oneUnit_accepted (genesis_units params) rfl rfl hd hadmits
  obtain ⟨hunits, hparams, hstaking⟩ := (genesis_units params).accepted hfirst
  obtain ⟨w₂, hsecond⟩ := oneUnit_accepted hunits hparams hstaking he hadmits'
  have hordered : Ordered ([(blockAt k, oneUnit d)] ++ [(blockAt h, oneUnit e)]) := by
    have hle' : k.toInt ≤ h.toInt := Int64.le_iff_toInt_le.mp hle
    refine ⟨?_, ?_⟩
    · simp only [List.singleton_append, List.mem_cons, List.not_mem_nil, or_false,
        forall_eq_or_imp, forall_eq]
      exact ⟨hpos, lt_of_lt_of_le hpos hle'⟩
    · exact List.pairwise_pair.mpr hle'
  have hsame := (hisolated devnet treasury aliceOnly [(blockAt k, oneUnit d)]
    (blockAt h, oneUnit e) hordered hne).history k
  rw [run_snoc, run_cons, run_nil, submitted_oneUnit hdname hfirst,
    submitted_oneUnit hename hsecond] at hsame
  have hmem := mem_history_accepted hfirst hkept (isPrefixOf_priceKey d k)
  rw [← hsame, priceHistory, List.mem_filter, Store.mem_select] at hmem
  obtain ⟨⟨key, hkey, -⟩, -⟩ := hmem
  rw [hsecond.get_prices, Option.filter_eq_some_iff, hparams] at hkey
  exact hnot (retained_iff.mp hkey.2)

/-- The price alone needs less: where pruning stays behind the window, a submission
for another denomination that does not continue this one changes no later price. -/
theorem twap_isolated {A : App} (bank : BankGenesis) (staking : ValidatorSet)
    (hsane : Sane params) (hunmixed : Unmixed params d) {inputs : List (Input A)} {next : Input A}
    (hordered : Ordered (inputs ++ [next])) (hne : next.2.denom ≠ d) (ctx : Ctx A)
    (hlater : next.1.height ≤ ctx.height) :
    answer (computeTWAP ctx d
        (run submitted (genesis A bank params staking).world (inputs ++ [next]))) =
      answer (computeTWAP ctx d (run submitted (genesis A bank params staking).world inputs)) := by
  have hw := traced_run params bank staking hordered
  rw [run_snoc]
  rcases commit_cases (next.2.exec next.1)
    (run submitted (genesis A bank params staking).world inputs) with ⟨_, hok⟩ | ⟨-, hsame⟩
  · obtain ⟨-, submitter, price, haccepted⟩ := exec_ok_iff.mp hok
    have hwhite : next.2.denom ∈ params.whitelistedDenoms := hw.params_eq ▸ haccepted.whitelisted
    have hpos := hordered.init.2.1
    obtain ⟨m, hm, hresult⟩ := haccepted.result
    have hstored := select_stored (q := fun key => (historyKey d).toList.isPrefixOf key.toList) hm
      (notPrefix_of_unmixed hunmixed hwhite hne next.1.height)
    have hparams : paramsOf m = params := hm.cacheOnly.paramsOf.trans hw.params_eq
    have hagree := agree_pruned hparams (cutoff_le_of_sane hsane hpos.le)
    rw [submitted, hresult, answer_computeTWAP, answer_computeTWAP, hagree.paramsOf_eq, hparams,
      hw.params_eq, hagree.windowEntries (windowStart_mono hsane.window_nonneg hpos.le hlater),
      windowEntries, windowEntries, hparams, hw.params_eq, priceHistory, priceHistory, hstored]
  · rw [submitted, hsame]

/-- A denomination is isolated exactly if no other one continues it after a slash
and no submission for another one can prune an entry of it. -/
theorem denoms_isolated_iff (params : OracleParams) (d : String) :
    Isolated params d ↔ Unmixed params d ∧ ¬PrunedByOthers params d :=
  ⟨fun h => ⟨unmixed_of_isolated h, not_prunedByOthers_of_isolated h⟩,
    fun h => isolated_of h.1 h.2⟩

def slashed : OracleParams := { defaultOracleParams with whitelistedDenoms := ["ibc", "ibc/ATOM"] }

/-- The devnet after submissions by its validator. -/
def afterPrices (params : OracleParams) (inputs : List (Input devnet)) : World :=
  run submitted (genesis devnet treasury params aliceOnly).world inputs

def priced (d : String) (height : Int64) (price : Dec) : Input devnet :=
  (blockAt height, ⟨devnet.text alice, d, some price⟩)

/-- A price of `ibc/ATOM` is the latest one of `ibc` and half of its median. With the
default parameters a price of `ATOM` in block 37 is the end of that of `ZYTC` from
block 1. -/
theorem denoms_leak :
    (priceHistory (afterPrices slashed [priced "ibc" 1 ⟨1⟩]) "ibc" 0).length = 1 ∧
      (priceHistory (afterPrices slashed [priced "ibc" 1 ⟨1⟩, priced "ibc/ATOM" 2 ⟨9⟩]) "ibc"
        0).length = 2 ∧
      (getLatestPrice (afterPrices slashed [priced "ibc" 1 ⟨1⟩, priced "ibc/ATOM" 2 ⟨9⟩])
        "ibc").map PriceEntry.denom = some "ibc/ATOM" ∧
      (computeTWAP (blockAt 2) "ibc" (afterPrices slashed [priced "ibc" 1 ⟨1⟩])).returned = none ∧
      (computeTWAP (blockAt 2) "ibc" (afterPrices slashed
        [priced "ibc" 1 ⟨1⟩, priced "ibc/ATOM" 2 ⟨9⟩])).returned = some ⟨"ibc", ⟨5⟩, 0, 2, 2⟩ ∧
      (getLatestPrice (afterPrices defaultOracleParams [priced "ZYTC" 1 ⟨1⟩])
        "ZYTC").map PriceEntry.height = some 1 ∧
      getLatestPrice (afterPrices defaultOracleParams [priced "ZYTC" 1 ⟨1⟩, priced "ATOM" 37 ⟨9⟩])
        "ZYTC" = none := by
  decide +kernel

end Leaks

end Zytherion.PriceIsolation
