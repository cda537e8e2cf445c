import Zytherion.PriceLog

/-!
# Pruning and the prices computed after it

Pruning deletes what lies below the height less the window and the age. A price
reads only what lies in the window, and windows move up: two worlds that agree
from the start of a window on agree after whatever is submitted later, and so do
the prices computed in them.

The cutoff is a difference of 64 bits. Where it wraps around it is a positive
height although no entry is old enough, and pruning deletes entries of the
window.
-/
namespace Zytherion.PricePruning

open GoCall KeyedStore SdkMath Application ChainState StablecoinKeeper OracleKeeper OracleMsgServer
open OracleChain PriceLog

/-- What a call answers, without the state it leaves. -/
def answer {σ ε α : Type} : Outcome σ ε α → Outcome Unit ε α
  | .ok a _ => .ok a ()
  | .err e _ => .err e ()
  | .panic r => .panic r

inductive OracleOp where
  | submitPrice (msg : MsgSubmitPrice)
  | beginBlock
  | endBlock

structure OracleCall (A : App) where
  ctx : Ctx A
  op : OracleOp

def OracleCall.exec {A : App} (c : OracleCall A) : WorldExec Unit :=
  match c.op with
  | .submitPrice msg => msg.exec c.ctx
  | .beginBlock => OracleMsgServer.beginBlock c.ctx
  | .endBlock => OracleMsgServer.endBlock c.ctx

def after {A : App} (w : World) (c : OracleCall A) : World := commit c.exec w

section Answers
variable {A : App} (ctx : Ctx A)

/-- The answer of a price computation, from the parameters and the entries of the
window. -/
def twapAnswer (params : OracleParams) (d : String) (entries : List PriceEntry) :
    Outcome Unit Err TWAPData :=
  if (entries.length : ℤ) < params.minSubmissions.toInt then
    .err (.wrap ("got " ++ toString entries.length ++ " submissions, need " ++
      toString params.minSubmissions ++ " for denom " ++ d) errInsufficientSubmissions) ()
  else
    match medianPrice (entries.map PriceEntry.priceUSD) with
    | .ok median => .ok ⟨d, median, windowStart params ctx.height, ctx.height,
        Int64.ofNat entries.length⟩ ()
    | .error r => .panic r

theorem answer_computeTWAP (d : String) (w : World) :
    answer (computeTWAP ctx d w) =
      twapAnswer ctx (paramsOf w) d (windowEntries w d ctx.height) := by
  let entries := windowEntries w d ctx.height
  let few : Bool := decide ((entries.length : ℤ) < (paramsOf w).minSubmissions.toInt)
  have heq : computeTWAP ctx d w =
      (require (!few) (.wrap ("got " ++ toString entries.length ++ " submissions, need " ++
          toString (paramsOf w).minSubmissions ++ " for denom " ++ d)
          errInsufficientSubmissions) >>= fun _ =>
        liftM (medianPrice (entries.map PriceEntry.priceUSD)) >>= fun median =>
          pure ⟨d, median, windowStart (paramsOf w) ctx.height, ctx.height,
            Int64.ofNat entries.length⟩ : WorldExec TWAPData) w := rfl
  rw [heq, twapAnswer]
  split_ifs with hfew
  · rw [show few = true from decide_eq_true hfew]
    rfl
  · rw [show few = false from decide_eq_false hfew]
    cases hmedian : medianPrice (entries.map PriceEntry.priceUSD) <;> rfl

/-- An entry more or less makes a difference. -/
theorem twapAnswer_ne (params : OracleParams) (d : String) (e : PriceEntry) :
    twapAnswer ctx params d [e] ≠ twapAnswer ctx params d [] := by
  unfold twapAnswer
  by_cases hone : (([e].length : ℕ) : ℤ) < params.minSubmissions.toInt
  · -- the two errors count differently
    have hnone : (([] : List PriceEntry).length : ℤ) < params.minSubmissions.toInt := by
      simp only [List.length_singleton, List.length_nil] at hone ⊢
      omega
    rw [if_pos hone, if_pos hnone]
    intro h
    injection h with htext
    injection htext with htext
    rw [List.length_singleton, List.length_nil, show toString 1 = "1" by decide,
      show toString 0 = "0" by decide] at htext
    have hcount := congrArg (fun text : String => text.toList.take 5) htext
    simp [String.toList_append] at hcount
  · have hmedian : medianPrice ([e].map PriceEntry.priceUSD) = .ok e.priceUSD := by
      simp [medianPrice, sortPrices, orPanic]
    rw [if_neg hone, hmedian]
    split_ifs
    · simp
    · have hnil : medianPrice (([] : List PriceEntry).map PriceEntry.priceUSD) =
          .error "index out of range" := rfl
      rw [hnil]
      simp

end Answers

/-- Two worlds with the same parameters that differ in entries below a height
only. -/
structure Agree (params : OracleParams) (start : Int64) (w v : World) : Prop where
  rest : v = { w with prices := v.prices }
  params_eq : paramsOf w = params
  entries : ∀ q, (w.prices.select q).filter (fun e => decide (start ≤ e.height)) =
    (v.prices.select q).filter fun e => decide (start ≤ e.height)

namespace Agree
variable {A : App} {ctx : Ctx A} {params : OracleParams} {start : Int64} {w v w' : World}
  {d : String} {u : Unit}

theorem symm (h : Agree params start w v) : Agree params start v w := by
  obtain ⟨hrest, hparams, hentries⟩ := h
  refine ⟨?_, ?_, fun q => (hentries q).symm⟩
  · rw [hrest]
  · rw [hrest]
    exact hparams

theorem paramsOf_eq (h : Agree params start w v) : paramsOf v = paramsOf w := by
  rw [h.rest]
  rfl

theorem history (h : Agree params start w v) {fromHeight : Int64} (hle : start ≤ fromHeight) :
    priceHistory v d fromHeight = priceHistory w d fromHeight := by
  have hsplit : ∀ l : List PriceEntry, l.filter (fun e => decide (fromHeight ≤ e.height)) =
      (l.filter fun e => decide (start ≤ e.height)).filter
        fun e => decide (fromHeight ≤ e.height) := by
    intro l
    rw [List.filter_filter]
    refine List.filter_congr fun e _ => ?_
    by_cases he : fromHeight ≤ e.height
    · simp [he, Int64.le_trans hle he]
    · simp [he]
  rw [priceHistory, priceHistory, hsplit (v.prices.select _), ← h.entries, ← hsplit]

theorem windowEntries (h : Agree params start w v) {height : Int64}
    (hle : start ≤ windowStart params height) :
    OracleMsgServer.windowEntries v d height = OracleMsgServer.windowEntries w d height := by
  rw [OracleMsgServer.windowEntries, OracleMsgServer.windowEntries, h.paramsOf_eq, h.params_eq]
  exact h.history hle

theorem stored (h : Agree params start w v) (e : PriceEntry) :
    Agree params start (OracleMsgServer.stored w e) (OracleMsgServer.stored v e) := by
  refine ⟨?_, h.params_eq, fun q => ?_⟩
  · rw [OracleMsgServer.stored, h.rest]
    rfl
  · exact Store.filter_select_set h.entries ..

theorem cached (h : Agree params start w v) (data : TWAPData) :
    Agree params start (OracleMsgServer.cached w data) (OracleMsgServer.cached v data) := by
  refine ⟨?_, h.params_eq, h.entries⟩
  rw [OracleMsgServer.cached, h.rest]
  rfl

theorem pruned (h : Agree params start w v) (height : Int64) :
    Agree params start (OracleMsgServer.pruned w height) (OracleMsgServer.pruned v height) := by
  unfold OracleMsgServer.pruned
  rw [h.paramsOf_eq]
  split_ifs
  · exact h
  · refine ⟨?_, h.params_eq, fun q => ?_⟩
    · conv_lhs => rw [h.rest]
    · rw [Store.select_discard, Store.select_discard, List.filter_comm, h.entries,
        List.filter_comm]

/-- What returns in one world returns in the other, and they still agree. -/
def Simulated (params : OracleParams) (start : Int64) (x : WorldExec Unit) : Prop :=
  ∀ w v w', Agree params start w v → x w = .ok () w' →
    ∃ v', x v = .ok () v' ∧ Agree params start w' v'

theorem refresh (hle : start ≤ windowStart params ctx.height) (d : String) :
    Simulated params start (refreshTWAP ctx d) := by
  intro w v w' h hok
  simp only [refreshTWAP_ok] at hok ⊢
  have hentries := h.windowEntries hle (d := d)
  have henough : Enough v d ctx.height ↔ Enough w d ctx.height := by
    rw [Enough, Enough, hentries, h.paramsOf_eq]
  cases hok with
  | skipped few => exact ⟨v, .skipped (mt henough.mp few), h⟩
  | replaced enough median computed =>
      have hdata : twapData ctx v d median = twapData ctx w d median := by
        rw [twapData, twapData, hentries, h.paramsOf_eq]
      refine ⟨_, .replaced (henough.mpr enough) median (by rw [hentries, computed]), ?_⟩
      rw [hdata]
      exact h.cached _

theorem refreshAll (hle : start ≤ windowStart params ctx.height) (ds : List String) :
    Simulated params start (List.forM ds (refreshTWAP ctx)) := by
  induction ds with
  | nil =>
      intro w v w' h hok
      obtain ⟨-, rfl⟩ := (pure_ok _ _).mp hok
      exact ⟨v, rfl, h⟩
  | cons d ds ih =>
      intro w v w' h hok
      obtain ⟨_, w₁, hfirst, hrest⟩ := (bind_ok (refreshTWAP ctx d) _).mp hok
      obtain ⟨v₁, hfirst', h₁⟩ := refresh hle d w v w₁ h hfirst
      obtain ⟨v', hrest', h'⟩ := ih w₁ v₁ w' h₁ hrest
      exact ⟨v', (bind_ok (refreshTWAP ctx d) _).mpr ⟨(), v₁, hfirst', hrest'⟩, h'⟩

theorem submission (hle : start ≤ windowStart params ctx.height) (msg : MsgSubmitPrice) :
    Simulated params start (msg.exec ctx) := by
  intro w v w' h hok
  obtain ⟨hdenom, submitter, price, haccepted⟩ := exec_ok_iff.mp hok
  obtain ⟨m, hm, rfl⟩ := haccepted.result
  obtain ⟨m', hm', hagree⟩ := refresh hle msg.denom _ _ m (h.stored (msg.entry ctx price))
    (refreshTWAP_ok.mpr hm)
  refine ⟨OracleMsgServer.pruned m' ctx.height, exec_ok_iff.mpr ⟨hdenom, submitter, price,
    haccepted.address, ?_, ?_, haccepted.price_eq, haccepted.positive, m', refreshTWAP_ok.mp hm',
    rfl⟩, hagree.pruned _⟩
  · rw [h.rest]
    exact haccepted.validator
  · rw [h.paramsOf_eq]
    exact haccepted.whitelisted

theorem call {c : OracleCall A} (hle : start ≤ windowStart params c.ctx.height) :
    Simulated params start c.exec := by
  unfold OracleCall.exec
  cases c.op with
  | submitPrice msg => exact submission hle msg
  | beginBlock =>
      intro w v w' h hok
      rw [beginBlock_ok] at hok
      obtain ⟨v', hok', h'⟩ := refreshAll hle _ w v w' h hok
      refine ⟨v', ?_, h'⟩
      rw [beginBlock_ok, h.paramsOf_eq]
      exact hok'
  | endBlock =>
      intro w v w' h hok
      have hprune : pruneOldPrices c.ctx.height w = .ok () w' := hok
      rw [pruneOldPrices_eq] at hprune
      injection hprune with _ hw'
      refine ⟨OracleMsgServer.pruned v c.ctx.height, pruneOldPrices_eq v c.ctx.height, ?_⟩
      rw [← hw']
      exact h.pruned _

theorem step {c : OracleCall A} (hle : start ≤ windowStart params c.ctx.height)
    (h : Agree params start w v) : Agree params start (after w c) (after v c) := by
  have hsim := call hle
  unfold after
  rcases commit_cases c.exec w with ⟨_, hw⟩ | ⟨hw, hsame⟩
  · obtain ⟨v', hv, h'⟩ := hsim w v _ h hw
    rw [commit_ok hv]
    exact h'
  · have hv : ∀ u t, c.exec v ≠ .ok u t := by
      intro u t hv
      obtain ⟨w', hw', -⟩ := hsim v w t h.symm hv
      exact hw () w' hw'
    rw [hsame, commit_of_not_ok hv]
    exact h

/-- Worlds that agree from the start of a window on agree after calls in blocks
with later windows. -/
theorem run {calls : List (OracleCall A)}
    (hle : ∀ c ∈ calls, start ≤ windowStart params c.ctx.height) (h : Agree params start w v) :
    Agree params start (GoCall.run after w calls) (GoCall.run after v calls) := by
  induction calls generalizing w v with
  | nil => exact h
  | cons c calls ih => exact ih (fun d hd => hle d (by simp [hd])) (h.step (hle c (by simp)))

end Agree

/-- Pruning at a height changes no price computed at that height or later, whatever
is submitted in between. -/
def Invisible (params : OracleParams) (h : Int64) : Prop :=
  ∀ (A : App) (w : World), paramsOf w = params →
    ∀ calls : List (OracleCall A), (∀ c ∈ calls, h ≤ c.ctx.height) →
      ∀ ctx : Ctx A, h ≤ ctx.height → ∀ d,
        answer (computeTWAP ctx d (run after (commit (pruneOldPrices h) w) calls)) =
          answer (computeTWAP ctx d (run after w calls))

section Heights
variable {params : OracleParams} {h : Int64}

/-- A cutoff that did not wrap around lies before the window. -/
theorem cutoff_le_windowStart (hwindow : 0 ≤ params.twapWindowBlocks.toInt)
    (hage : 0 ≤ params.maxPriceAge.toInt) (hpos : 0 < (cutoff params h).toInt)
    (hexact : (cutoff params h).toInt =
      h.toInt - params.twapWindowBlocks.toInt - params.maxPriceAge.toInt) :
    0 ≤ h.toInt ∧ cutoff params h ≤ windowStart params h := by
  have hh : 0 ≤ h.toInt := by omega
  refine ⟨hh, ?_⟩
  rw [Int64.le_iff_toInt_le, windowStart_toInt hwindow hh]
  omega

theorem cutoff_exact (hwindow : 0 ≤ params.twapWindowBlocks.toInt)
    (hage : 0 ≤ params.maxPriceAge.toInt) (hh : 0 ≤ h.toInt)
    (hlo : -2 ^ 63 ≤ h.toInt - params.twapWindowBlocks.toInt - params.maxPriceAge.toInt) :
    (cutoff params h).toInt =
      h.toInt - params.twapWindowBlocks.toInt - params.maxPriceAge.toInt := by
  have hlt := h.toInt_lt
  have hsub : (h - params.twapWindowBlocks).toInt = h.toInt - params.twapWindowBlocks.toInt :=
    toInt_sub_eq (by omega) (by omega)
  rw [cutoff, toInt_sub_eq (by omega) (by omega), hsub]

/-- Where it did wrap around, some later window still begins at zero. -/
theorem exists_windowStart_zero (hwindow : 0 ≤ params.twapWindowBlocks.toInt)
    (hage : 0 ≤ params.maxPriceAge.toInt) (hwrapped : (cutoff params h).toInt ≠
      h.toInt - params.twapWindowBlocks.toInt - params.maxPriceAge.toInt) :
    ∃ k, h ≤ k ∧ windowStart params k = 0 := by
  have hage_lt := params.maxPriceAge.toInt_lt
  by_cases hh : 0 ≤ h.toInt
  · have hlow : h.toInt - params.twapWindowBlocks.toInt - params.maxPriceAge.toInt < -2 ^ 63 := by
      by_contra hlo
      exact hwrapped (cutoff_exact hwindow hage hh (not_lt.mp hlo))
    refine ⟨h, Int64.le_refl h, Int64.toInt_inj.mp ?_⟩
    rw [windowStart_toInt hwindow hh, Int64.toInt_zero]
    omega
  · refine ⟨0, ?_, Int64.toInt_inj.mp ?_⟩
    · rw [Int64.le_iff_toInt_le, Int64.toInt_zero]
      omega
    · rw [windowStart_toInt (h := 0) hwindow (by decide), Int64.toInt_zero]
      omega

end Heights

section Results
variable {A : App} {params : OracleParams} {h : Int64}

theorem agree_pruned {w : World} (hparams : paramsOf w = params) {start : Int64}
    (hle : cutoff params h ≤ start) : Agree params start w (pruned w h) := by
  refine ⟨pruned_eq w h, hparams, fun q => ?_⟩
  unfold pruned
  split_ifs
  · rfl
  · rw [Store.select_discard, List.filter_filter, hparams]
    refine List.filter_congr fun e _ => ?_
    by_cases he : start ≤ e.height
    · simp [he, Int64.not_lt.mpr (Int64.le_trans hle he)]
    · simp [he]

theorem commit_prune (w : World) (h : Int64) : commit (pruneOldPrices h) w = pruned w h :=
  commit_ok (pruneOldPrices_eq w h)

/-- One entry at height zero. -/
def oneEntry (params : OracleParams) : World :=
  ⟨Devnet.treasury.blank, some params,
    Store.set ∅ (priceKey "ATOM" 0) ⟨"ATOM", ⟨1⟩, "", 0, 0⟩, ⟨[], List.nodup_nil⟩⟩

theorem oneEntry_select (params : OracleParams) : (oneEntry params).prices.select
    (fun key => (historyKey "ATOM").toList.isPrefixOf key.toList) =
      [⟨"ATOM", ⟨1⟩, "", 0, 0⟩] := by
  have hordered : (oneEntry params).prices.ordered =
      [⟨priceKey "ATOM" 0, ⟨"ATOM", ⟨1⟩, "", 0, 0⟩⟩] := rfl
  rw [Store.select, hordered, List.filter_singleton, isPrefixOf_priceKey]
  rfl

theorem invisible_of_exact (hwindow : 0 ≤ params.twapWindowBlocks.toInt)
    (hage : 0 ≤ params.maxPriceAge.toInt)
    (hexact : cutoff params h ≤ 0 ∨ (cutoff params h).toInt =
      h.toInt - params.twapWindowBlocks.toInt - params.maxPriceAge.toInt) :
    Invisible params h := by
  intro A w hparams calls hcalls ctx hctx d
  rw [commit_prune]
  by_cases hnone : cutoff params h ≤ 0
  · rw [pruned, hparams, if_pos hnone]
  have hpos : 0 < (cutoff params h).toInt := by
    rw [Int64.le_iff_toInt_le, Int64.toInt_zero] at hnone
    omega
  obtain ⟨hh, hle⟩ := cutoff_le_windowStart hwindow hage hpos (hexact.resolve_left hnone)
  have hagree : Agree params (windowStart params h) (run after w calls)
      (run after (pruned w h) calls) :=
    (agree_pruned hparams hle).run fun c hc => windowStart_mono hwindow hh (hcalls c hc)
  rw [answer_computeTWAP, answer_computeTWAP, hagree.paramsOf_eq,
    hagree.windowEntries (windowStart_mono hwindow hh hctx)]

theorem visible_of_wrapped (hwindow : 0 ≤ params.twapWindowBlocks.toInt)
    (hage : 0 ≤ params.maxPriceAge.toInt) (hpos : ¬cutoff params h ≤ 0)
    (hwrapped : (cutoff params h).toInt ≠
      h.toInt - params.twapWindowBlocks.toInt - params.maxPriceAge.toInt) :
    ¬Invisible params h := by
  intro hinvisible
  obtain ⟨k, hk, hstart⟩ := exists_windowStart_zero hwindow hage hwrapped
  have hanswers := hinvisible Devnet.devnet (oneEntry params) rfl [] (by simp) (Devnet.blockAt k)
    hk "ATOM"
  rw [commit_prune, run_nil, run_nil, answer_computeTWAP, answer_computeTWAP] at hanswers
  rw [paramsOf_pruned] at hanswers
  have hwindowed : windowEntries (oneEntry params) "ATOM" k = [⟨"ATOM", ⟨1⟩, "", 0, 0⟩] := by
    rw [windowEntries, priceHistory, oneEntry_select]
    show List.filter (fun e : PriceEntry => decide (windowStart params k ≤ e.height)) _ = _
    rw [hstart]
    rfl
  have hnone : windowEntries (pruned (oneEntry params) h) "ATOM" k = [] := by
    have hdeleted : (0 : Int64) < cutoff params h := Int64.not_le.mp hpos
    have hparams : paramsOf (oneEntry params) = params := rfl
    rw [windowEntries, priceHistory, pruned, hparams, if_neg hpos, Store.select_discard,
      oneEntry_select]
    simp [hdeleted]
  rw [show (Devnet.blockAt k).height = k from rfl, hwindowed, hnone] at hanswers
  exact twapAnswer_ne _ _ _ _ hanswers.symm

/-- Pruning is invisible exactly where the cutoff is not positive or did not wrap
around. A block ends without entries below a positive cutoff. -/
theorem pruning_invisible_iff (params : OracleParams) (h : Int64)
    (hwindow : 0 ≤ params.twapWindowBlocks.toInt) (hage : 0 ≤ params.maxPriceAge.toInt) :
    (Invisible params h ↔ cutoff params h ≤ 0 ∨ (cutoff params h).toInt =
      h.toInt - params.twapWindowBlocks.toInt - params.maxPriceAge.toInt) ∧
    ∀ (A : App) (ctx : Ctx A) (w w' : World), paramsOf w = params → ctx.height = h →
      endBlock ctx w = .ok () w' →
      0 < h.toInt - params.twapWindowBlocks.toInt - params.maxPriceAge.toInt →
      ∀ k e, w'.prices.get k = some e →
        h.toInt - params.twapWindowBlocks.toInt - params.maxPriceAge.toInt ≤ e.height.toInt := by
  constructor
  · constructor
    · intro hinvisible
      by_contra hwrapped
      obtain ⟨hpos, hwrapped⟩ := not_or.mp hwrapped
      exact visible_of_wrapped hwindow hage hpos hwrapped hinvisible
    · exact invisible_of_exact hwindow hage
  · rintro A ctx w w' rfl rfl hend hpos k e hk
    have hexact := cutoff_exact hwindow hage (h := ctx.height) (by omega) (by omega)
    have hpruned : pruned w ctx.height = w' := by
      have hprune : pruneOldPrices ctx.height w = .ok () w' := hend
      rw [pruneOldPrices_eq] at hprune
      injection hprune
    rw [← hpruned, get_pruned, Option.filter_eq_some_iff] at hk
    have hretained := hk.2
    simp only [retained, Bool.or_eq_true, decide_eq_true_eq, Bool.not_eq_true',
      decide_eq_false_iff_not, Int64.le_iff_toInt_le, Int64.lt_iff_toInt_lt, Int64.toInt_zero,
      hexact] at hretained
    omega

/-- The default parameters prune what no window reaches. -/
theorem default_pruning_invisible : Invisible defaultOracleParams 100 :=
  (pruning_invisible_iff defaultOracleParams 100 (by decide) (by decide)).1.mpr (.inr (by decide))

end Results

section Wrapped
open Devnet

/-- Every entry is young enough and in the window. -/
def longMemory : OracleParams where
  twapWindowBlocks := 9223372036854775807
  minSubmissions := 1
  maxPriceAge := 9223372036854775807
  whitelistedDenoms := ["ATOM"]

def firstPrice : World :=
  ⟨treasury.blank, some longMemory,
    Store.set ∅ (priceKey "ATOM" 1) ⟨"ATOM", ⟨1⟩, "", 1, 0⟩, ⟨[], List.nodup_nil⟩⟩

/-- The cutoff of the first block is three, and its price is gone. -/
theorem first_price_pruned :
    cutoff longMemory 1 = 3 ∧
      (computeTWAP (blockAt 1) "ATOM" firstPrice).returned =
        some ⟨"ATOM", ⟨1⟩, 0, 1, 1⟩ ∧
      (computeTWAP (blockAt 1) "ATOM" (commit (pruneOldPrices 1) firstPrice)).returned = none := by
  decide +kernel

end Wrapped

end Zytherion.PricePruning
