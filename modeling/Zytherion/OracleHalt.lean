import Zytherion.PriceLog

/-!
# When the refresh stops the chain

The median of an even number of prices adds the two middle ones, and a sum of
more than 315 bits panics. A submission that brings two such prices together in
its own window fails and is undone. But the window moves on: a price between
them drops out, and the next refresh adds them up outside any transaction.

If no two prices of a denomination from different heights add up past the bound,
every block of every run completes.
-/
namespace Zytherion.OracleHalt

open GoCall KeyedStore SdkMath Application ChainState Bank OracleKeeper OracleMsgServer OracleChain
open PriceLog

section Runs
variable {A : App} {params : OracleParams} {n n' : Node} {ctx : Ctx A} {u : Unit}

/-- Submissions for one denomination in blocks of different heights never add up
past the bound. -/
def SumsFit (blocks : List (Block A)) : Prop :=
  ∀ b ∈ blocks, ∀ b' ∈ blocks, b.height ≠ b'.height →
    ∀ msg msg' : MsgSubmitPrice, .submitPrice msg ∈ b.msgs → .submitPrice msg' ∈ b'.msgs →
      msg.denom = msg'.denom → ∀ price ∈ msg.priceUsd, ∀ price' ∈ msg'.priceUsd, SumFits price price'

/-- Every logged submission is a message of one of the blocks. -/
def Sourced (blocks : List (Block A)) (n : Node) : Prop := ∀ sub ∈ n.log, ∃ b ∈ blocks,
  ∃ msg price, .submitPrice msg ∈ b.msgs ∧ msg.priceUsd = some price ∧
    sub.entry = msg.entry b.ctx price

theorem mem_noted {w : World} {m : BlockMsg} {sub : Submission} (h : sub ∈ noted ctx w m) :
    ∃ msg price, m = .submitPrice msg ∧ msg.priceUsd = some price ∧
      sub.entry = msg.entry ctx price := by
  cases m with
  | submitPrice msg =>
      simp only [noted] at h
      split at h
      · rename_i hprice
        rw [List.mem_singleton.mp h]
        exact ⟨msg, _, rfl, hprice, rfl⟩
      · cases h
  | stablecoin z => cases h
  | environment outside staking => cases h

theorem Sourced.block {blocks : List (Block A)} {b : Block A} (hb : b ∈ blocks)
    (hn : Sourced blocks n) (h : OracleChain.block b n = .ok u n') : Sourced blocks n' := by
  obtain ⟨m, hm, rfl⟩ := block_ok.mp h
  obtain ⟨w', -, rfl⟩ := opened_ok.mp hm
  refine run_invariant (Sourced blocks) (· ∈ b.msgs) ?_ b.msgs _ hn fun _ hi => hi
  intro n m hmem hn sub hsub
  rcases List.mem_append.mp hsub with hsub | hsub
  · exact hn sub hsub
  · obtain ⟨msg, price, rfl, hprice, hentry⟩ := mem_noted hsub
    exact ⟨b, hb, msg, price, hmem, hprice, hentry⟩

/-- Two logged prices of a denomination from different heights. -/
theorem Sourced.sumFits {blocks : List (Block A)} (hfit : SumsFit blocks) (hn : Sourced blocks n)
    {sub sub' : Submission} (hsub : sub ∈ n.log) (hsub' : sub' ∈ n.log)
    (hdenom : sub.entry.denom = sub'.entry.denom) (hheight : sub.entry.height ≠ sub'.entry.height) :
    SumFits sub.entry.priceUSD sub'.entry.priceUSD := by
  obtain ⟨b, hb, msg, price, hmem, hprice, hentry⟩ := hn sub hsub
  obtain ⟨b', hb', msg', price', hmem', hprice', hentry'⟩ := hn sub' hsub'
  rw [hentry, hentry'] at hdenom hheight ⊢
  exact hfit b hb b' hb' hheight msg msg' hmem hmem' hdenom price hprice price' hprice'

/-- A refresh returns if some entry is asked for, histories do not mix and
prices can be added. -/
theorem beginBlock_returns (ctx : Ctx A) (hr : Recorded A params n) (hmin : 0 < params.minSubmissions.toInt)
    (hunmixed : ∀ d ∈ params.whitelistedDenoms, Unmixed params d)
    (hfit : ∀ sub ∈ n.log, ∀ sub' ∈ n.log, sub.entry.denom = sub'.entry.denom →
      sub.entry.height ≠ sub'.entry.height → SumFits sub.entry.priceUSD sub'.entry.priceUSD) :
    ∃ w', beginBlock ctx n.world = .ok () w' := by
  simp only [beginBlock_ok, hr.params_eq]
  apply refreshAll_returns
  intro d hd henough
  rw [Enough, hr.params_eq] at henough
  apply medianPrice_returns
  · rw [ne_eq, List.map_eq_nil_iff]
    intro hnil
    rw [hnil, List.length_nil] at henough
    omega
  · intro p hp
    obtain ⟨e, he, rfl⟩ := List.mem_map.mp hp
    obtain ⟨sub, hsub, rfl⟩ := hr.history_logged he
    exact (hr.logged sub hsub).2.1.le
  · rw [List.pairwise_map]
    have hheights : ((windowEntries n.world d ctx.height).map PriceEntry.height).Nodup :=
      hr.history_heights_nodup (hunmixed d hd)
    refine (List.pairwise_map.mp hheights).imp_of_mem fun {e e'} he he' hne => ?_
    have hdenom := hr.history_denom (hunmixed d hd) he
    have hdenom' := hr.history_denom (hunmixed d hd) he'
    obtain ⟨sub, hsub, rfl⟩ := hr.history_logged he
    obtain ⟨sub', hsub', rfl⟩ := hr.history_logged he'
    exact hfit sub hsub sub' hsub' (hdenom.trans hdenom'.symm) hne

theorem block_returns {blocks : List (Block A)} {b : Block A} (hr : Recorded A params n)
    (hmin : 0 < params.minSubmissions.toInt)
    (hunmixed : ∀ d ∈ params.whitelistedDenoms, Unmixed params d) (hfit : SumsFit blocks)
    (hn : Sourced blocks n) : ∃ n', block b n = .ok () n' := by
  obtain ⟨w', hw⟩ := beginBlock_returns b.ctx hr hmin hunmixed
    fun sub hsub sub' hsub' => hn.sumFits hfit hsub hsub'
  exact ⟨_, block_ok.mpr ⟨_, opened_ok.mpr ⟨w', hw, rfl⟩, rfl⟩⟩

theorem blocks_return {blocks : List (Block A)} (hmin : 0 < params.minSubmissions.toInt)
    (hunmixed : ∀ d ∈ params.whitelistedDenoms, Unmixed params d) (hfit : SumsFit blocks)
    (bs : List (Block A)) (hsub : ∀ b ∈ bs, b ∈ blocks) {h : Int64}
    (hasc : (h :: bs.map Block.height).Pairwise (· < ·)) (hr : Recorded A params n)
    (hn : Sourced blocks n) : ∃ n', List.forM bs block n = .ok () n' := by
  induction bs generalizing h n with
  | nil => exact ⟨n, rfl⟩
  | cons b bs ih =>
      obtain ⟨m, hm⟩ := block_returns (b := b) hr hmin hunmixed hfit hn
      obtain ⟨hlt, htail⟩ := List.pairwise_cons.mp hasc
      obtain ⟨n', hn'⟩ := ih (fun c hc => hsub c (by simp [hc])) htail
        ((recorded_invariant A params).block (hlt b.height (by simp)) hr hm)
        (hn.block (hsub b (by simp)) hm)
      exact ⟨n', (bind_ok _ _).mpr ⟨(), m, hm, hn'⟩⟩

/-- It is enough that every single price stays below half of the bound. -/
theorem sumsFit_of_half {blocks : List (Block A)} (h : ∀ b ∈ blocks, ∀ msg : MsgSubmitPrice,
      .submitPrice msg ∈ b.msgs → ∀ price ∈ msg.priceUsd, 2 * price.raw < (decBound : ℤ)) :
    SumsFit blocks := by
  intro b hb b' hb' _ msg msg' hmem hmem' _ price hprice price' hprice'
  have hlt := h b hb msg hmem price hprice
  have hlt' := h b' hb' msg' hmem' price' hprice'
  unfold SumFits
  omega

theorem defaultOracleParams_unmixed (d : String) : Unmixed defaultOracleParams d :=
  unmixed_of_no_slash (by decide) d

/-- From default genesis every block of every run completes while prices of a
denomination from different heights can be added. -/
theorem blocks_complete (bank : BankGenesis) (staking : ValidatorSet) (blocks : List (Block A))
    (hheights : Increasing (blocks.map Block.height)) (hfit : SumsFit blocks) :
    ∃ n, List.forM blocks block (genesis A bank defaultOracleParams staking) = .ok () n :=
  blocks_return (by decide) (fun d _ => defaultOracleParams_unmixed d) hfit blocks (fun _ hb => hb)
    hheights (recorded_genesis bank staking) (by intro sub hsub; cases hsub)

end Runs

section Devnet
open Devnet

/-- A price of 315 bits. -/
def hugePrice : Dec := ⟨decBound - 2⟩

/-- The huge price next to the smallest one, then alone with itself. -/
def haltingBlocks : List (Block devnet) :=
  [⟨blockAt 1, [submit alice "ZYTC" ⟨1⟩]⟩, ⟨blockAt 2, [submit alice "ZYTC" hugePrice]⟩,
    ⟨blockAt 3, [submit alice "ZYTC" hugePrice]⟩, ⟨blockAt 32, []⟩]

theorem haltingBlocks_halt : Increasing (haltingBlocks.map Block.height) ∧
    ((List.forM (haltingBlocks.take 3) block
      (genesis devnet treasury defaultOracleParams aliceOnly)).left.map fun n => n.log.length) =
        some 3 ∧
    (List.forM haltingBlocks block
      (genesis devnet treasury defaultOracleParams aliceOnly)).panicked = true := by
  refine ⟨?_, ?_, ?_⟩
  · unfold Increasing
    decide
  · decide +kernel
  · decide +kernel

/-- Two ordinary prices and many blocks after them. -/
def quietBlocks : List (Block devnet) :=
  [⟨blockAt 1, [submit alice "ZYTC" (.newDecWithPrec 150 2)]⟩,
    ⟨blockAt 2, [submit alice "ZYTC" (.newDecWithPrec 151 2)]⟩, ⟨blockAt 40, []⟩]

theorem quietBlocks_complete : ∃ n, List.forM quietBlocks block
    (genesis devnet treasury defaultOracleParams aliceOnly) = .ok () n := by
  refine blocks_complete treasury aliceOnly quietBlocks ?_ (sumsFit_of_half ?_)
  · unfold Increasing
    decide
  · intro b hb msg hmem price hprice
    simp only [quietBlocks, List.mem_cons, List.not_mem_nil, or_false] at hb
    rcases hb with rfl | rfl | rfl
    · obtain rfl := BlockMsg.submitPrice.inj (List.mem_singleton.mp hmem)
      obtain rfl := Option.some.inj hprice
      decide
    · obtain rfl := BlockMsg.submitPrice.inj (List.mem_singleton.mp hmem)
      obtain rfl := Option.some.inj hprice
      decide
    · cases hmem

end Devnet

end Zytherion.OracleHalt
