import Zytherion.PriceLog
import Mathlib.Data.Finset.Card
import Mathlib.Data.List.Find

/-!
# One sample per height

The key of an entry names the denomination and the height but not the validator,
so that every submission replaces the one made before it in the same block. The
samples of a window are the last submissions of its heights: no more than one
per height, whoever made it.

Two consequences. No submission is lost exactly if no two validators submit a
denomination at the same height. And the median is safe from faulty validators
if they come last at fewer than half of the heights, no matter how many honest
submissions came before them.
-/
namespace Zytherion.Samples

open GoCall KeyedStore SdkMath Application ChainState Bank OracleKeeper OracleMsgServer OracleChain
open PriceLog

section Window
variable (params : OracleParams) (h : Int64) (d : String) (log : List Submission)

/-- The accepted submissions of a denomination within the window. -/
def submissions : List Submission :=
  log.filter fun sub => decide (sub.entry.denom = d ∧ windowStart params h ≤ sub.entry.height)

/-- Who submitted at which height. -/
def pairs : Finset (AccAddress × Int64) :=
  ((submissions params h d log).map fun sub => (sub.submitter, sub.entry.height)).toFinset

/-- The heights with a submission. -/
def heights : Finset Int64 :=
  ((submissions params h d log).map fun sub => sub.entry.height).toFinset

def submitters : Finset AccAddress :=
  ((submissions params h d log).map Submission.submitter).toFinset

end Window

/-- The last submission of a validator for a denomination at a height. -/
def latestBy (log : List Submission) (a : AccAddress) (d : String) (k : Int64) :
    Option Submission :=
  log.reverse.find? fun sub =>
    decide (sub.submitter = a ∧ sub.entry.denom = d ∧ sub.entry.height = k)

/-- Every validator's last word at a height of the window is a sample, and there
are as many samples as validators and heights. -/
structure NothingLost (params : OracleParams) (h : Int64) (d : String) (n : Node) : Prop where
  present : ∀ sub ∈ submissions params h d n.log,
    latestBy n.log sub.submitter d sub.entry.height = some sub →
      sub.entry ∈ windowEntries n.world d h
  counted : (windowEntries n.world d h).length = (pairs params h d n.log).card

/-- No two validators submitted the denomination at one height of the window. -/
def Alone (params : OracleParams) (h : Int64) (d : String) (log : List Submission) : Prop :=
  ∀ sub ∈ submissions params h d log, ∀ sub' ∈ submissions params h d log,
    sub.entry.height = sub'.entry.height → sub.submitter = sub'.submitter

section Counting
variable {A : App} {params : OracleParams} {n : Node} {h : Int64} {d : String}

theorem mem_submissions {log : List Submission} {sub : Submission} :
    sub ∈ submissions params h d log ↔
      sub ∈ log ∧ sub.entry.denom = d ∧ windowStart params h ≤ sub.entry.height := by
  rw [submissions, List.mem_filter, decide_eq_true_eq]

theorem heights_eq_image (log : List Submission) :
    heights params h d log = (pairs params h d log).image Prod.snd := by
  ext k
  simp [heights, pairs]

/-- The heights of the samples are the heights with a submission. -/
theorem sample_heights (hk : Kept params h n) (hr : Recorded A params n) (hd : Unmixed params d) :
    ((windowEntries n.world d h).map PriceEntry.height).toFinset = heights params h d n.log := by
  ext k
  simp only [heights, List.mem_toFinset, List.mem_map, mem_submissions]
  constructor
  · rintro ⟨e, he, rfl⟩
    obtain ⟨hle, sub, hsub, rfl⟩ := (hk.mem_window hr hd).mp he
    obtain ⟨hmem, hdenom, -⟩ := lastAt_some hsub
    exact ⟨sub, ⟨hmem, hdenom, hle⟩, rfl⟩
  · rintro ⟨sub, ⟨hmem, hdenom, hle⟩, rfl⟩
    obtain ⟨last, hlast⟩ := lastAt_of_mem hmem
    rw [hdenom] at hlast
    have hheight := (lastAt_some hlast).2.2
    refine ⟨last.entry, (hk.mem_window hr hd).mpr ⟨?_, last, ?_, rfl⟩, hheight⟩
    · rw [hheight]
      exact hle
    · rw [hheight]
      exact hlast

theorem sample_heights_nodup (hr : Recorded A params n) (hd : Unmixed params d) :
    ((windowEntries n.world d h).map PriceEntry.height).Nodup := hr.history_heights_nodup hd

theorem samples_length (hk : Kept params h n) (hr : Recorded A params n) (hd : Unmixed params d) :
    (windowEntries n.world d h).length = (heights params h d n.log).card := by
  rw [← sample_heights hk hr hd, List.toFinset_card_of_nodup (sample_heights_nodup hr hd),
    List.length_map]

/-- Heights determine the pairs exactly if nobody shares one. -/
theorem alone_iff_card (log : List Submission) : Alone params h d log ↔
    (heights params h d log).card = (pairs params h d log).card := by
  rw [heights_eq_image, Finset.card_image_iff]
  constructor
  · intro halone p hp q hq heq
    simp only [pairs, List.coe_toFinset, Set.mem_ofPred_eq, List.mem_map] at hp hq
    obtain ⟨sub, hsub, rfl⟩ := hp
    obtain ⟨sub', hsub', rfl⟩ := hq
    exact Prod.ext (halone sub hsub sub' hsub' heq) heq
  · intro hinj sub hsub sub' hsub' heq
    have hmem : ∀ x ∈ submissions params h d log, (x.submitter, x.entry.height) ∈
        (pairs params h d log : Set (AccAddress × Int64)) := by
      intro x hx
      simp only [pairs, List.coe_toFinset, Set.mem_ofPred_eq]
      exact List.mem_map_of_mem hx
    exact congrArg Prod.fst (hinj (hmem sub hsub) (hmem sub' hsub') heq)

/-- A validator alone at a height has the last word there. -/
theorem Alone.lastAt_eq {log : List Submission} (halone : Alone params h d log) {sub : Submission}
    (hsub : sub ∈ submissions params h d log)
    (hlatest : latestBy log sub.submitter d sub.entry.height = some sub) :
    lastAt log d sub.entry.height = some sub := by
  rw [← hlatest, lastAt, latestBy]
  apply List.find?_congr
  intro x hx
  obtain ⟨-, -, hle⟩ := mem_submissions.mp hsub
  rw [decide_eq_decide, iff_and_self]
  rintro ⟨hdenom, hheight⟩
  refine halone x (mem_submissions.mpr ⟨List.mem_reverse.mp hx, hdenom, ?_⟩) sub hsub hheight
  rw [hheight]
  exact hle

theorem nothingLost_iff_alone (hk : Kept params h n) (hr : Recorded A params n)
    (hd : Unmixed params d) : NothingLost params h d n ↔ Alone params h d n.log := by
  constructor
  · intro hlost
    rw [alone_iff_card, ← samples_length hk hr hd]
    exact hlost.counted
  · intro halone
    refine ⟨fun sub hsub hlatest => ?_, ?_⟩
    · exact (hk.mem_window hr hd).mpr
        ⟨(mem_submissions.mp hsub).2.2, sub, halone.lastAt_eq hsub hlatest, rfl⟩
    · rw [samples_length hk hr hd]
      exact (alone_iff_card n.log).mp halone

end Counting

section Runs
variable {A : App} {params : OracleParams} {n : Node} {ctx : Ctx A} {d : String}

theorem reached_kept (hsane : Sane params) (bank : BankGenesis) (staking : ValidatorSet)
    (h : Reached ctx (genesis A bank params staking) n) :
    Recorded A params n ∧ Kept params ctx.height n :=
  (kept_invariant A hsane).reached
    ⟨recorded_genesis bank staking, kept_genesis A params bank staking⟩ h

/-- No submission of a window is lost exactly if no two validators share a
height; the samples counted are the ones the median is taken of. -/
theorem nothing_lost_iff (hsane : Sane params) (hd : Unmixed params d) (bank : BankGenesis)
    (staking : ValidatorSet) (h : Reached ctx (genesis A bank params staking) n) :
    (NothingLost params ctx.height d n ↔ Alone params ctx.height d n.log) ∧
      ∀ data w', computeTWAP ctx d n.world = .ok data w' →
        data.numSamples = Int64.ofNat (windowEntries n.world d ctx.height).length ∧
        medianPrice ((windowEntries n.world d ctx.height).map PriceEntry.priceUSD) =
          .ok data.twap := by
  obtain ⟨hr, hk⟩ := reached_kept hsane bank staking h
  refine ⟨nothingLost_iff_alone hk hr hd, fun data w' hdata => ?_⟩
  obtain ⟨-, median, hmedian, rfl, -⟩ := computeTWAP_ok.mp hdata
  exact ⟨rfl, hmedian⟩

/-- A faulty validator has the last word at a height. -/
def faultyLast (faulty : AccAddress → Bool) (log : List Submission) (d : String) (k : Int64) : Bool :=
  (lastAt log d k).any fun sub => faulty sub.submitter

/-- The samples outside an interval that holds all honest prices stand at heights
where a faulty validator came last. -/
theorem samples_outside_le {h : Int64} {faulty : AccAddress → Bool} {lo hi : ℤ}
    (hk : Kept params h n) (hr : Recorded A params n) (hd : Unmixed params d)
    (hhonest : ∀ sub ∈ submissions params h d n.log, faulty sub.submitter = false →
      lo ≤ sub.entry.priceUSD.raw ∧ sub.entry.priceUSD.raw ≤ hi) :
    ((windowEntries n.world d h).map PriceEntry.priceUSD).countP
        (fun p => !decide (lo ≤ p.raw ∧ p.raw ≤ hi)) ≤
      ((heights params h d n.log).filter fun k => faultyLast faulty n.log d k = true).card := by
  have hfaulty : ∀ e ∈ windowEntries n.world d h,
      (!decide (lo ≤ e.priceUSD.raw ∧ e.priceUSD.raw ≤ hi)) = true →
        faultyLast faulty n.log d e.height = true := by
    intro e he hout
    obtain ⟨hle, sub, hsub, rfl⟩ := (hk.mem_window hr hd).mp he
    obtain ⟨hmem, hdenom, -⟩ := lastAt_some hsub
    rw [faultyLast, hsub, Option.any_some]
    by_contra hgood
    have hin := hhonest sub (mem_submissions.mpr ⟨hmem, hdenom, hle⟩) (by simpa using hgood)
    simp [hin] at hout
  calc ((windowEntries n.world d h).map PriceEntry.priceUSD).countP
        (fun p => !decide (lo ≤ p.raw ∧ p.raw ≤ hi))
      = (windowEntries n.world d h).countP
          fun e => !decide (lo ≤ e.priceUSD.raw ∧ e.priceUSD.raw ≤ hi) := List.countP_map
    _ ≤ (windowEntries n.world d h).countP fun e => faultyLast faulty n.log d e.height :=
        List.countP_mono_left hfaulty
    _ = (((windowEntries n.world d h).map PriceEntry.height).filter
          (faultyLast faulty n.log d)).length := by
        rw [← List.countP_eq_length_filter, List.countP_map]
        rfl
    _ = ((heights params h d n.log).filter fun k => faultyLast faulty n.log d k = true).card := by
        rw [← List.toFinset_card_of_nodup ((sample_heights_nodup hr hd).filter _),
          List.toFinset_filter, sample_heights hk hr hd]

/-- A price computed while faulty validators come last at fewer than half of the
heights lies between the honest ones. -/
theorem median_between_honest (hsane : Sane params) (hd : Unmixed params d) (bank : BankGenesis)
    (staking : ValidatorSet) (h : Reached ctx (genesis A bank params staking) n)
    (faulty : AccAddress → Bool) (lo hi : ℤ)
    (hhonest : ∀ sub ∈ submissions params ctx.height d n.log, faulty sub.submitter = false →
      lo ≤ sub.entry.priceUSD.raw ∧ sub.entry.priceUSD.raw ≤ hi)
    (hfew : 2 * ((heights params ctx.height d n.log).filter
        fun k => faultyLast faulty n.log d k = true).card <
      (heights params ctx.height d n.log).card) (data : TWAPData) (w' : World)
    (hdata : computeTWAP ctx d n.world = .ok data w') :
    lo ≤ data.twap.raw ∧ data.twap.raw ≤ hi := by
  obtain ⟨hr, hk⟩ := reached_kept hsane bank staking h
  obtain ⟨-, median, hmedian, rfl, -⟩ := computeTWAP_ok.mp hdata
  have hout := samples_outside_le hk hr hd hhonest
  have hlen := samples_length hk hr hd
  refine medianPrice_mem_Icc ?_ ?_ hmedian
  · intro p hp
    obtain ⟨e, he, rfl⟩ := List.mem_map.mp hp
    obtain ⟨sub, hsub, rfl⟩ := hr.history_logged he
    exact (hr.logged sub hsub).2.1.le
  · rw [List.length_map]
    omega

end Runs

section Devnet
open Devnet

def carol : AccAddress := ⟨[3, 3, 3, 3, 3, 3, 3, 3, 3, 3, 3, 3, 3, 3, 3, 3, 3, 3, 3, 3],
  by decide, by decide⟩

/-- Three bonded validators. -/
def threeValidators : ValidatorSet :=
  ⟨[⟨alice, .bonded, false⟩, ⟨bob, .bonded, false⟩, ⟨carol, .bonded, false⟩], by decide⟩

def begun : Node := genesis devnet treasury defaultOracleParams threeValidators

/-- Two blocks, as far as the messages of the second. -/
def twoBlocks (first second : List BlockMsg) : Call Node Err Unit :=
  upTo (blockAt 2) [⟨blockAt 1, first⟩] second

theorem twoBlocks_reached {first second : List BlockMsg}
    (h : (twoBlocks first second begun).returned = some ()) :
    Reached (blockAt 2) begun (commit (twoBlocks first second) begun) :=
  reached_commit (show Increasing [1, 2] by unfold Increasing; decide) h

theorem defaultOracleParams_sane : Sane defaultOracleParams := ⟨by decide, by decide, by decide⟩

theorem zytc_unmixed : Unmixed defaultOracleParams "ZYTC" := unmixed_of_no_slash (by decide) _

/-- Each of the three submits in both blocks, and `carol` comes last. -/
def crowdedRound : List BlockMsg :=
  [submit alice "ZYTC" (.newDecWithPrec 1 0), submit bob "ZYTC" (.newDecWithPrec 1 0),
    submit carol "ZYTC" (.newDecWithPrec 1000 0)]

def crowded : Node := commit (twoBlocks crowdedRound crowdedRound) begun

/-- What is left of six submissions, and the price computed from it. -/
theorem crowded_facts :
    (twoBlocks crowdedRound crowdedRound begun).returned = some () ∧
    (pairs defaultOracleParams 2 "ZYTC" crowded.log).card = 6 ∧
    (windowEntries crowded.world "ZYTC" 2).length = 2 ∧
    2 * ((submitters defaultOracleParams 2 "ZYTC" crowded.log).filter (· = carol)).card <
      (submitters defaultOracleParams 2 "ZYTC" crowded.log).card ∧
    (∀ a ∈ [alice, bob],
      (∃ sub ∈ submissions defaultOracleParams 2 "ZYTC" crowded.log,
        sub.submitter = a ∧ sub.entry.height = 1) ∧
      ∃ sub ∈ submissions defaultOracleParams 2 "ZYTC" crowded.log,
        sub.submitter = a ∧ sub.entry.height = 2) ∧
    (∀ sub ∈ submissions defaultOracleParams 2 "ZYTC" crowded.log, sub.submitter ≠ carol →
      sub.entry.priceUSD = .newDecWithPrec 1 0) ∧
    (computeTWAP (blockAt 2) "ZYTC" crowded.world).returned =
      some ⟨"ZYTC", .newDecWithPrec 1000 0, 0, 2, 2⟩ := by
  decide +kernel

theorem crowded_reached : Reached (blockAt 2) begun crowded := twoBlocks_reached crowded_facts.1

/-- Of six submissions two are left. -/
theorem crowded_loses : Reached (blockAt 2) begun crowded ∧
    (pairs defaultOracleParams 2 "ZYTC" crowded.log).card = 6 ∧
    ((computeTWAP (blockAt 2) "ZYTC" crowded.world).returned.map TWAPData.numSamples) = some 2 ∧
    ¬NothingLost defaultOracleParams 2 "ZYTC" crowded := by
  obtain ⟨-, hpairs, hlength, -, -, -, htwap⟩ := crowded_facts
  refine ⟨crowded_reached, hpairs, by rw [htwap]; rfl, fun hlost => ?_⟩
  have hcounted := hlost.counted
  rw [hpairs, hlength] at hcounted
  omega

/-- One faulty validator of three sets the price, although the others submit an
honest one in every block. -/
theorem crowded_outvoted : Reached (blockAt 2) begun crowded ∧
    2 * ((submitters defaultOracleParams 2 "ZYTC" crowded.log).filter (· = carol)).card <
      (submitters defaultOracleParams 2 "ZYTC" crowded.log).card ∧
    (∀ a ∈ [alice, bob], ∀ k ∈ [(1 : Int64), 2],
      ∃ sub ∈ submissions defaultOracleParams 2 "ZYTC" crowded.log,
        sub.submitter = a ∧ sub.entry.height = k) ∧
    (∀ sub ∈ submissions defaultOracleParams 2 "ZYTC" crowded.log, sub.submitter ≠ carol →
      sub.entry.priceUSD = .newDecWithPrec 1 0) ∧
    ((computeTWAP (blockAt 2) "ZYTC" crowded.world).returned.map TWAPData.twap) =
      some (.newDecWithPrec 1000 0) := by
  obtain ⟨-, -, -, hminority, hpresent, hhonest, htwap⟩ := crowded_facts
  refine ⟨crowded_reached, hminority, fun a ha => ?_, hhonest, by rw [htwap]; rfl⟩
  obtain ⟨hfirst, hsecond⟩ := hpresent a ha
  exact List.forall_mem_cons.mpr ⟨hfirst, List.forall_mem_singleton.mpr hsecond⟩

/-- A block for each of two validators, the faulty one not among them. -/
def alternatingRun : Call Node Err Unit :=
  twoBlocks [submit alice "ZYTC" (.newDecWithPrec 1 0)] [submit bob "ZYTC" (.newDecWithPrec 3 0)]

def alternating : Node := commit alternatingRun begun

theorem alternating_facts :
    (alternatingRun begun).returned = some () ∧
    (∀ sub ∈ submissions defaultOracleParams 2 "ZYTC" alternating.log,
      ∀ sub' ∈ submissions defaultOracleParams 2 "ZYTC" alternating.log,
        sub.entry.height = sub'.entry.height → sub.submitter = sub'.submitter) ∧
    (∀ sub ∈ submissions defaultOracleParams 2 "ZYTC" alternating.log,
      decide (sub.submitter = carol) = false →
        (Dec.newDecWithPrec 1 0).raw ≤ sub.entry.priceUSD.raw ∧
          sub.entry.priceUSD.raw ≤ (Dec.newDecWithPrec 3 0).raw) ∧
    2 * ((heights defaultOracleParams (blockAt 2).height "ZYTC" alternating.log).filter fun k =>
        faultyLast (fun a => decide (a = carol)) alternating.log "ZYTC" k = true).card <
      (heights defaultOracleParams (blockAt 2).height "ZYTC" alternating.log).card ∧
    (computeTWAP (blockAt 2) "ZYTC" alternating.world).returned =
      some ⟨"ZYTC", .newDecWithPrec 2 0, 0, 2, 2⟩ := by
  decide +kernel

theorem alternating_reached : Reached (blockAt 2) begun alternating :=
  twoBlocks_reached alternating_facts.1

theorem alternating_keeps : NothingLost defaultOracleParams 2 "ZYTC" alternating :=
  (nothing_lost_iff defaultOracleParams_sane zytc_unmixed treasury threeValidators
    alternating_reached).1.mpr alternating_facts.2.1

theorem alternating_between : ∃ data w',
    computeTWAP (blockAt 2) "ZYTC" alternating.world = .ok data w' ∧
      (Dec.newDecWithPrec 1 0).raw ≤ data.twap.raw ∧ data.twap.raw ≤ (Dec.newDecWithPrec 3 0).raw := by
  obtain ⟨-, -, hhonest, hfew, htwap⟩ := alternating_facts
  obtain ⟨w', hdata⟩ := returned_iff.mp htwap
  refine ⟨_, w', hdata, ?_⟩
  exact median_between_honest defaultOracleParams_sane zytc_unmixed treasury threeValidators
    alternating_reached (fun a => decide (a = carol)) (Dec.newDecWithPrec 1 0).raw
    (Dec.newDecWithPrec 3 0).raw hhonest hfew _ w' hdata

end Devnet

end Zytherion.Samples
