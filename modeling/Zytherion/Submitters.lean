import Zytherion.PriceLog

/-!
# Who may submit a price

The check of a submitter looks the address up among all stored validators and
accepts whatever it finds; the bonded ones are asked only if it finds nothing.
Since both lookups compare operators, the second one never adds anybody, and the
first one never asks for a status. A submission is from an active validator
exactly if the validator stored under its address is bonded and not jailed.

The second lookup compares address texts without regard to case. That this is a
comparison of addresses rests on the text form having no upper case letters.
-/
namespace Zytherion.Submitters

open GoCall KeyedStore SdkMath Application ChainState Bank OracleKeeper OracleMsgServer OracleChain
open PriceLog

/-- Address texts have no upper case letters. -/
def LowerTexts (A : App) : Prop := ∀ a, (A.text a).toList.map Char.toLower = (A.text a).toList

section Check
variable {A : App} {staking : ValidatorSet} {a b : AccAddress}

theorem equalFold_text (hlower : LowerTexts A) : equalFold (A.text a) (A.text b) = true ↔ a = b := by
  rw [equalFold, hlower a, hlower b, beq_iff_eq]
  constructor
  · intro h
    exact A.text_inj (String.toList_inj.mp h)
  · rintro rfl
    rfl

theorem getValidator_isSome : (staking.getValidator a).isSome = true ↔
    ∃ v ∈ staking.validators, v.operator = a := by
  rw [ValidatorSet.getValidator, List.find?_isSome]
  simp only [beq_iff_eq]

/-- Any stored operator passes the check, and nobody else. -/
theorem isValidatorSubmitter_iff (hlower : LowerTexts A) :
    isValidatorSubmitter A staking a = true ↔ ∃ v ∈ staking.validators, v.operator = a := by
  rw [isValidatorSubmitter, Bool.or_eq_true, getValidator_isSome, List.any_eq_true]
  constructor
  · rintro (h | ⟨v, hv, htext⟩)
    · exact h
    · exact ⟨v, (List.mem_filter.mp hv).1, (equalFold_text hlower).mp htext⟩
  · exact .inl

/-- The submitter operated a bonded validator that was not jailed. -/
def Active (sub : Submission) : Prop :=
  ∃ v ∈ sub.staking.validators, v.operator = sub.submitter ∧ v.status = .bonded ∧ v.jailed = false

/-- No validator that is unbonded, unbonding or jailed is stored for the submitter. -/
def InGoodStanding (sub : Submission) : Prop :=
  ∀ v ∈ sub.staking.validators, v.operator = sub.submitter → v.status = .bonded ∧ v.jailed = false

theorem active_iff_inGoodStanding {sub : Submission}
    (hstored : ∃ v ∈ sub.staking.validators, v.operator = sub.submitter) :
    Active sub ↔ InGoodStanding sub := by
  constructor
  · rintro ⟨v, hv, hop, hstatus⟩ v' hv' hop'
    obtain rfl := List.inj_on_of_nodup_map sub.staking.unique hv hv' (hop.trans hop'.symm)
    exact hstatus
  · intro hgood
    obtain ⟨v, hv, hop⟩ := hstored
    exact ⟨v, hv, hop, hgood v hv hop⟩

end Check

/-- Every stored entry is an accepted submission, and a submission is from an
active validator exactly if no other is stored for its address. -/
theorem submission_active_iff {A : App} {params : OracleParams} {ctx : Ctx A} {n : Node}
    (hlower : LowerTexts A) (bank : BankGenesis) (staking : ValidatorSet)
    (h : Reached ctx (genesis A bank params staking) n) :
    (∀ key e, n.world.prices.get key = some e → ∃ sub ∈ n.log, sub.entry = e) ∧
      ∀ sub ∈ n.log, Active sub ↔ InGoodStanding sub := by
  have hr := (recorded_invariant A params).reached (recorded_genesis bank staking) h
  refine ⟨fun key e he => (hr.stored key e he).2, fun sub hsub => ?_⟩
  exact active_iff_inGoodStanding ((isValidatorSubmitter_iff hlower).mp (hr.logged sub hsub).2.2)

section Devnet
open Devnet

theorem devnet_lowerTexts : LowerTexts devnet := by
  intro a
  have hchars : (devnet.text a).toList = Bech32.encodeChars accountAddressPrefix.toList a.bytes :=
    String.toList_ofList
  have hlower : ∀ c ∈ Bech32.encodeChars accountAddressPrefix.toList a.bytes, c.toLower = c := by
    intro c hc
    rcases List.mem_append.mp hc with hc | hc
    · exact (prefix_lower c hc).1
    · rcases List.mem_cons.mp hc with rfl | hc
      · decide
      · exact (Bech32.dataPart_plain _ _ c hc).1
  rw [hchars, List.map_congr_left hlower, List.map_id']

/-- `alice` has been jailed and has left the bonded validators. -/
def aliceJailed : ValidatorSet := ⟨[⟨alice, .unbonded, true⟩], by decide⟩

def onePrice : Call Node Err Unit :=
  upTo (blockAt 1) [] [submit alice "ZYTC" (.newDecWithPrec 1 0)]

def jailedGenesis : Node := genesis devnet treasury defaultOracleParams aliceJailed

theorem jailed_facts : (onePrice jailedGenesis).returned = some () ∧
    ((commit onePrice jailedGenesis).world.prices.get (priceKey "ZYTC" 1)).isSome = true ∧
    (commit onePrice jailedGenesis).log.length = 1 ∧
    ∀ sub ∈ (commit onePrice jailedGenesis).log, ∀ v ∈ sub.staking.validators,
      v.status ≠ .bonded := by
  decide +kernel

theorem onePrice_reached {start : Node} (h : (onePrice start).returned = some ()) :
    Reached (blockAt 1) start (commit onePrice start) :=
  reached_commit (show Increasing [1] by unfold Increasing; decide) h

/-- A jailed and unbonded validator's price is stored. -/
theorem jailed_submits : Reached (blockAt 1) jailedGenesis (commit onePrice jailedGenesis) ∧
    ((commit onePrice jailedGenesis).world.prices.get (priceKey "ZYTC" 1)).isSome = true ∧
    ∃ sub ∈ (commit onePrice jailedGenesis).log, ¬Active sub := by
  obtain ⟨hreturned, hstored, hone, hunbonded⟩ := jailed_facts
  obtain ⟨sub, hsub⟩ := List.exists_mem_of_length_pos (by omega :
    0 < (commit onePrice jailedGenesis).log.length)
  refine ⟨onePrice_reached hreturned, hstored, sub, hsub, ?_⟩
  rintro ⟨v, hv, -, hbonded, -⟩
  exact hunbonded sub hsub v hv hbonded

def bondedGenesis : Node := genesis devnet treasury defaultOracleParams aliceOnly

theorem bonded_facts : (onePrice bondedGenesis).returned = some () ∧
    (commit onePrice bondedGenesis).log.length = 1 ∧
    ∀ sub ∈ (commit onePrice bondedGenesis).log, ∀ v ∈ sub.staking.validators,
      v.operator = sub.submitter → v.status = .bonded ∧ v.jailed = false := by
  decide +kernel

theorem bonded_submits : (commit onePrice bondedGenesis).log.length = 1 ∧
    ∀ sub ∈ (commit onePrice bondedGenesis).log, Active sub := by
  obtain ⟨hreturned, hone, hgood⟩ := bonded_facts
  refine ⟨hone, fun sub hsub => ?_⟩
  exact ((submission_active_iff devnet_lowerTexts treasury aliceOnly
    (onePrice_reached hreturned)).2 sub hsub).mpr (hgood sub hsub)

end Devnet

end Zytherion.Submitters
