import Zytherion.OracleChain
import Mathlib.Data.Set.Finite.Lemmas

/-!
# The price of a block over any store

The price is the median of the entries in the window, however they were sorted
and in whatever order they came. It lies between two of them, so that positive
prices have a positive median.

A refresh takes no median of nothing as long as the parameters ask for at least
one submission. Genesis does not check that they do: with none asked for, the
first block without prices indexes an empty list and panics.
-/
namespace Zytherion.PriceMedian

open GoCall KeyedStore SdkMath Application ChainState StablecoinKeeper OracleKeeper OracleMsgServer
open HalfEven

section Medians
variable {prices : List Dec} {m : Dec}

/-- The middle one of sorted prices, or the average of the two middle ones with a
tie in the last decimal going to the even neighbour. -/
def middlePrice (sorted : List Dec) : Option Dec :=
  if sorted.length % 2 = 1 then sorted[sorted.length / 2]?
  else do
    let mid1 ← sorted[sorted.length / 2 - 1]?
    let mid2 ← sorted[sorted.length / 2]?
    return ⟨halfEven 2 (mid1.raw + mid2.raw)⟩

theorem average_raw {a b sum : Dec} (hnonneg : 0 ≤ a.raw + b.raw) (hsum : a.add b = .ok sum)
    (hm : sum.quo (.newDecWithPrec 2 0) = .ok m) : m.raw = halfEven 2 (a.raw + b.raw) := by
  obtain ⟨hraw, -⟩ := Dec.add_ok.mp hsum
  have htwo : (Dec.newDecWithPrec 2 0).raw = 2 * precision := by decide
  have hE := precision_pos
  -- the quotient is exact before it is rounded
  have hexact : (a.raw + b.raw) * precision / 2 = (a.raw + b.raw) * (precision / 2) :=
    Int.mul_ediv_assoc _ (by decide)
  calc m.raw = halfEven precision (sum.raw * (precision * precision) / (2 * precision)) := by
        rw [Dec.quo_raw (by omega) (by rw [htwo]; omega) hm, htwo]
    _ = halfEven precision ((a.raw + b.raw) * (precision / 2)) := by
        rw [hraw, ← mul_assoc, Int.mul_ediv_mul_of_pos_left _ _ hE, hexact]
    _ = halfEven (2 * (precision / 2)) ((a.raw + b.raw) * (precision / 2)) := by
        rw [show 2 * (precision / 2) = precision by decide]
    _ = halfEven 2 (a.raw + b.raw) := halfEven_mul_mul (by decide)

theorem middlePrice_of_median (hnonneg : ∀ p ∈ prices, 0 ≤ p.raw) (h : medianPrice prices = .ok m)
    {sorted : List Dec} (hperm : sorted.Perm prices)
    (hsorted : sorted.Pairwise fun a b => a.raw ≤ b.raw) : middlePrice sorted = some m := by
  obtain rfl := eq_sortPrices hperm hsorted
  rw [middlePrice, sortPrices_length]
  rcases medianPrice_ok h with ⟨hodd, hm⟩ | ⟨heven, a, b, sum, ha, hb, hsum, hm⟩
  · rw [if_pos hodd, hm]
  · have hmem : ∀ p, p ∈ sortPrices prices → 0 ≤ p.raw := fun p hp =>
      hnonneg p ((sortPrices_perm prices).mem_iff.mp hp)
    have hadd : 0 ≤ a.raw + b.raw :=
      add_nonneg (hmem a (List.mem_of_getElem? ha)) (hmem b (List.mem_of_getElem? hb))
    rw [if_neg (by omega), ha, hb]
    exact congrArg (fun raw => some (Dec.mk raw)) (average_raw hadd hsum hm).symm

theorem medianPrice_nil : ∀ m, medianPrice [] ≠ .ok m := by
  intro m h
  rcases medianPrice_ok h with ⟨hodd, -⟩ | ⟨-, a, b, sum, ha, -⟩
  · cases hodd
  · cases ha

end Medians

section Prices
variable {A : App} {ctx : Ctx A} {w w' : World} {d : String} {data : TWAPData}

/-- The lowest and the highest of some entries, with the price between them. -/
def Between (entries : List PriceEntry) (price : Dec) : Prop :=
  ∃ lo ∈ entries, ∃ hi ∈ entries,
    (∀ e ∈ entries, lo.priceUSD.raw ≤ e.priceUSD.raw ∧ e.priceUSD.raw ≤ hi.priceUSD.raw) ∧
      lo.priceUSD.raw ≤ price.raw ∧ price.raw ≤ hi.priceUSD.raw

theorem median_between {entries : List PriceEntry} {m : Dec}
    (hnonneg : ∀ e ∈ entries, 0 ≤ e.priceUSD.raw)
    (h : medianPrice (entries.map PriceEntry.priceUSD) = .ok m) : Between entries m := by
  have hne : entries ≠ [] := by
    rintro rfl
    exact medianPrice_nil m h
  obtain ⟨e, he⟩ := List.exists_mem_of_ne_nil entries hne
  obtain ⟨lo, hlo, hmin⟩ := Set.exists_min_image {e | e ∈ entries} (fun e => e.priceUSD.raw)
    entries.finite_toSet ⟨e, he⟩
  obtain ⟨hi, hhi, hmax⟩ := Set.exists_max_image {e | e ∈ entries} (fun e => e.priceUSD.raw)
    entries.finite_toSet ⟨e, he⟩
  have hall : ∀ e ∈ entries, lo.priceUSD.raw ≤ e.priceUSD.raw ∧ e.priceUSD.raw ≤ hi.priceUSD.raw :=
    fun e he => ⟨hmin e he, hmax e he⟩
  refine ⟨lo, hlo, hi, hhi, hall, medianPrice_mem_Icc ?_ ?_ h⟩
  · intro p hp
    obtain ⟨e, he, rfl⟩ := List.mem_map.mp hp
    exact hnonneg e he
  · -- no price lies outside
    have hnone : (entries.map PriceEntry.priceUSD).countP
        (fun p => !decide (lo.priceUSD.raw ≤ p.raw ∧ p.raw ≤ hi.priceUSD.raw)) = 0 := by
      rw [List.countP_eq_zero]
      intro p hp
      obtain ⟨e, he, rfl⟩ := List.mem_map.mp hp
      simpa using hall e he
    rw [hnone, List.length_map]
    exact List.length_pos_iff.mpr hne

/-- A price that was computed is the median of the window, for every way to sort
its entries and in every world that has the same prices in some order. It is
positive, and a debt can be divided by it. -/
theorem twap_is_median (ctx : Ctx A) (w w' : World) (d : String) (data : TWAPData)
    (hpos : ∀ e ∈ windowEntries w d ctx.height, 0 < e.priceUSD.raw)
    (h : computeTWAP ctx d w = .ok data w') :
    (∀ sorted : List PriceEntry, sorted.Perm (windowEntries w d ctx.height) →
      sorted.Pairwise (fun a b => a.priceUSD.raw ≤ b.priceUSD.raw) →
        middlePrice (sorted.map PriceEntry.priceUSD) = some data.twap) ∧
    (∀ v : World, paramsOf v = paramsOf w →
      ((windowEntries v d ctx.height).map PriceEntry.priceUSD).Perm
        ((windowEntries w d ctx.height).map PriceEntry.priceUSD) →
          computeTWAP ctx d v = .ok data v) ∧
    Between (windowEntries w d ctx.height) data.twap ∧ 0 < data.twap.raw ∧
    ∀ debt : SdkInt, (Dec.ofInt debt).quo data.twap ≠ .error "division by zero" := by
  obtain ⟨henough, median, hmedian, rfl, -⟩ := computeTWAP_ok.mp h
  have hbetween := median_between (fun e he => (hpos e he).le) hmedian
  have hmedian_pos : 0 < median.raw := by
    obtain ⟨lo, hlo, -, -, -, hle, -⟩ := hbetween
    exact (hpos lo hlo).trans_le hle
  refine ⟨fun sorted hperm hsorted => ?_, fun v hparams hperm => ?_, hbetween, hmedian_pos,
    fun debt => ?_⟩
  · refine middlePrice_of_median ?_ hmedian (hperm.map _) (List.pairwise_map.mpr hsorted)
    intro p hp
    obtain ⟨e, he, rfl⟩ := List.mem_map.mp hp
    exact (hpos e he).le
  · have hlen : (windowEntries v d ctx.height).length = (windowEntries w d ctx.height).length := by
      simpa using hperm.length_eq
    rw [computeTWAP_ok, Enough, hlen, hparams]
    refine ⟨henough, median, (medianPrice_perm hperm).trans hmedian, ?_, rfl⟩
    rw [twapData, twapData, hlen, hparams]
  · show (if median.raw = 0 then _ else _) ≠ _
    rw [if_neg hmedian_pos.ne', Dec.checked]
    split_ifs <;> simp

end Prices

section Genesis

def validate (params : OracleParams) : Except Err Unit :=
  if params.whitelistedDenoms.length = 0 then
    .error (.wrap "genesis must have at least one whitelisted denom" errInvalidDenom)
  else .ok ()

/-- Positive prices of which no two add up past the bound. -/
structure Addable (prices : Store String PriceEntry) : Prop where
  positive : ∀ k e, prices.get k = some e → 0 < e.priceUSD.raw
  sums : ∀ k l e f, k ≠ l → prices.get k = some e → prices.get l = some f →
    SumFits e.priceUSD f.priceUSD

variable {A : App} {ctx : Ctx A} {w w' : World} {d : String}

theorem mem_windowEntries {height : Int64} {e : PriceEntry} (h : e ∈ windowEntries w d height) :
    ∃ k, w.prices.get k = some e := by
  obtain ⟨k, hk, -⟩ := (Store.mem_select ..).mp (List.mem_of_mem_filter h)
  exact ⟨k, hk⟩

theorem Addable.median_returns (hw : Addable w.prices) {height : Int64}
    (hne : windowEntries w d height ≠ []) :
    ∃ m, medianPrice ((windowEntries w d height).map PriceEntry.priceUSD) = .ok m := by
  refine medianPrice_returns (by simpa using hne) ?_ ?_
  · intro p hp
    obtain ⟨e, he, rfl⟩ := List.mem_map.mp hp
    obtain ⟨k, hk⟩ := mem_windowEntries he
    exact (hw.positive k e hk).le
  · rw [List.pairwise_map]
    exact (Store.pairwise_select fun k l e f hlt => hw.sums k l e f hlt.ne).filter _

theorem validate_ok {params : OracleParams} (h : validate params = .ok ()) :
    ∃ d ds, params.whitelistedDenoms = d :: ds := by
  unfold validate at h
  split_ifs at h with hempty
  exact List.exists_cons_of_length_pos (Nat.pos_of_ne_zero hempty)

/-- A chain at its genesis: no prices, no validators. -/
def unpriced (params : OracleParams) : World :=
  ⟨Devnet.treasury.blank, some params, ∅, ⟨[], List.nodup_nil⟩⟩

/-- Where no submission is asked for, the refresh of a denomination without entries
does not return. -/
theorem unpriced_refresh {params : OracleParams} (hmin : params.minSubmissions.toInt ≤ 0)
    {u : Unit} : refreshTWAP ctx d (unpriced params) ≠ .ok u w' := by
  intro h
  cases refreshTWAP_ok.mp h with
  | skipped few => exact few hmin
  | replaced _ median hmedian => exact medianPrice_nil median hmedian

/-- Of the parameters genesis accepts, those that ask for at least one submission
are safe in every block over every store. -/
theorem begin_block_safe_iff (ctx : Ctx A) (params : OracleParams)
    (hvalid : validate params = .ok ()) :
    (∀ w, paramsOf w = params → Addable w.prices → ∃ w', beginBlock ctx w = .ok () w') ↔
      0 < params.minSubmissions.toInt := by
  constructor
  · intro h
    by_contra hmin
    obtain ⟨d, ds, hwhite⟩ := validate_ok hvalid
    obtain ⟨w', hbegin⟩ := h (unpriced params) rfl ⟨by simp [unpriced], by simp [unpriced]⟩
    have hall : List.forM params.whitelistedDenoms (refreshTWAP ctx) (unpriced params) =
        .ok () w' := beginBlock_ok.mp hbegin
    rw [hwhite] at hall
    obtain ⟨_, w₁, hfirst, -⟩ := (bind_ok (refreshTWAP ctx d) _).mp hall
    exact unpriced_refresh (not_lt.mp hmin) hfirst
  · rintro hmin w rfl hw
    simp only [beginBlock_ok]
    refine refreshAll_returns fun d _ henough => hw.median_returns ?_
    intro hnil
    rw [Enough, hnil, List.length_nil] at henough
    omega

end Genesis

section Devnet
open Devnet OracleChain

/-- Two whitelisted prices a decimal apart in an odd place. -/
def twoPrices : World :=
  { unpriced defaultOracleParams with
    prices := (Store.set ∅ (priceKey "ATOM" 1) ⟨"ATOM", ⟨1⟩, "", 1, 0⟩).set (priceKey "ATOM" 2)
      ⟨"ATOM", ⟨2⟩, "", 2, 0⟩ }

theorem twoPrices_facts :
    (computeTWAP (blockAt 3) "ATOM" twoPrices).returned =
        some ⟨"ATOM", ⟨2⟩, 0, 3, 2⟩ ∧
      (∀ e ∈ windowEntries twoPrices "ATOM" 3, 0 < e.priceUSD.raw) ∧
      [(⟨"ATOM", ⟨1⟩, "", 1, 0⟩ : PriceEntry), ⟨"ATOM", ⟨2⟩, "", 2, 0⟩].Perm
        (windowEntries twoPrices "ATOM" 3) := by
  decide +kernel

/-- The average of one and two units in the last place is two. -/
theorem twoPrices_median :
    middlePrice [⟨1⟩, ⟨2⟩] = some ⟨2⟩ ∧ Between (windowEntries twoPrices "ATOM" 3) ⟨2⟩ := by
  obtain ⟨hreturned, hpos, hperm⟩ := twoPrices_facts
  obtain ⟨t, hok⟩ := returned_iff.mp hreturned
  obtain ⟨hmiddle, -, hbetween, -⟩ :=
    twap_is_median (blockAt 3) twoPrices t "ATOM" _ hpos hok
  exact ⟨hmiddle _ hperm (by decide), hbetween⟩

theorem default_begin_safe : validate defaultOracleParams = .ok () ∧
    ∃ w', beginBlock (blockAt 3) (unpriced defaultOracleParams) = .ok () w' :=
  ⟨rfl, (begin_block_safe_iff (blockAt 3) defaultOracleParams rfl).mpr (by decide) _ rfl
    ⟨by simp [unpriced], by simp [unpriced]⟩⟩

/-- Genesis accepts parameters that ask for no submission, and the first block
panics. -/
def noneAsked : OracleParams := { defaultOracleParams with minSubmissions := 0 }

theorem noneAsked_panics : validate noneAsked = .ok () ∧
    (beginBlock (blockAt 1) (unpriced noneAsked)).panicked = true := by
  refine ⟨rfl, ?_⟩
  decide +kernel

end Devnet

end Zytherion.PriceMedian
