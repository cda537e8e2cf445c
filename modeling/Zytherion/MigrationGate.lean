import Zytherion.ZytdMessages

/-!
# The migration to post-quantum keys

The stablecoin's messages arrive at any heights while everything outside its own
stores moves freely: prices, collateral assets, positions and balances are
whatever the environment makes them. Up to height 20000 an unregistered account
needs no signature, up to 50000 nothing can be minted, and above that nobody
acts without a registered key. The key in force is the one registered last, by
the account itself; the registry is exactly that history.
-/
namespace Zytherion.MigrationGate

open GoCall KeyedStore SdkMath Application ChainState StablecoinKeeper StablecoinMsgServer Chain
open VaultFrames ZytdMessages

/-- What happens next: a message in a block, or a change of the state around
the stablecoin. -/
inductive Input (A : App) where
  | message (ctx : Ctx A) (z : ZytdMsg)
  | environment (outside : State)

section Runs
variable {A : App}

def advance (s : State) : Input A → State
  | .message ctx z => commit (z.exec ctx) s
  | .environment outside => { outside with
      params := s.params, records := s.records, totalSupply := s.totalSupply, pqcKeys := s.pqcKeys }

variable (A) in
/-- The account a valid registration is for. -/
def registrant (msg : MsgRegisterZYTDKey) : Option AccAddress :=
  if msg.dilithium5PubKey.length = dilithium5PubKeySize ∧ 0 < msg.expirationBlockHeight then
    (A.accAddressFromBech32 msg.sender).toOption
  else none

/-- The key an account has after one more input, by the account's own messages. -/
def noteKey (a : AccAddress) (key : Option (List UInt8)) : Input A → Option (List UInt8)
  | .message _ (.register msg) =>
      if registrant A msg = some a then some msg.dilithium5PubKey else key
  | _ => key

/-- The key an account registered last, or the one it began with. -/
def latestKey (a : AccAddress) (first : Option (List UInt8)) (inputs : List (Input A)) :
    Option (List UInt8) := inputs.foldl (noteKey a) first

variable (A) in
def registeredKey (s : State) (a : AccAddress) : Option (List UInt8) :=
  s.pqcKeys.get (pqcKeyRegistryKey A a)

end Runs

section Steps
variable {A : App} {ctx : Ctx A} {s t : State} {u : Unit}

theorem pqcKeyRegistryKey_inj {a b : AccAddress}
    (h : pqcKeyRegistryKey A a = pqcKeyRegistryKey A b) : a = b :=
  A.textKey_inj _ h

theorem register_validateBasic_ok {msg : MsgRegisterZYTDKey} :
    msg.validateBasic A s = .ok u t ↔
      (∃ a, A.accAddressFromBech32 msg.sender = .ok a) ∧
        msg.dilithium5PubKey.length = dilithium5PubKeySize ∧ 0 < msg.expirationBlockHeight ∧
        s = t := by
  simp only [MsgRegisterZYTDKey.validateBasic, bind_ok, address_ok, requireExpiration, require_ok,
    beq_iff_eq, decide_eq_true_eq]
  constructor
  · rintro ⟨a, _, ⟨ha, rfl⟩, _, _, ⟨hlen, rfl⟩, hexp, rfl⟩
    exact ⟨⟨a, ha⟩, hlen, hexp, rfl⟩
  · rintro ⟨⟨a, ha⟩, hlen, hexp, rfl⟩
    exact ⟨a, s, ⟨ha, rfl⟩, (), s, ⟨hlen, rfl⟩, hexp, rfl⟩

theorem registrant_sender {msg : MsgRegisterZYTDKey} {a : AccAddress}
    (h : registrant A msg = some a) : A.accAddressFromBech32 msg.sender = .ok a := by
  simp only [registrant] at h
  split_ifs at h
  cases hp : A.accAddressFromBech32 msg.sender with
  | error e => simp [hp, Except.toOption] at h
  | ok b =>
      rw [hp] at h
      rw [← Option.some.inj h]

/-- A valid registration stores the key of its sender, every other one does nothing. -/
theorem commit_register (msg : MsgRegisterZYTDKey) :
    commit ((ZytdMsg.register msg).exec ctx) s =
      match registrant A msg with
      | some a => { s with pqcKeys := s.pqcKeys.set (pqcKeyRegistryKey A a) msg.dilithium5PubKey }
      | none => s := by
  cases hr : registrant A msg with
  | some a =>
      have ha := registrant_sender hr
      simp only [registrant] at hr
      split_ifs at hr with hvalid
      obtain ⟨hlen, hexp⟩ := hvalid
      apply commit_ok (a := ())
      refine handled_ok.mpr ⟨(), s, hexEncode (A.sha3Sum256 msg.dilithium5PubKey),
        register_validateBasic_ok.mpr ⟨⟨a, ha⟩, hlen, hexp, rfl⟩, ?_⟩
      simp only [registerZYTDKey, setZYTDPQCKey, bind_ok, address_ok, modifyStore_ok, pure_ok]
      exact ⟨a, s, ⟨ha, rfl⟩, (), _, rfl, trivial, rfl⟩
  | none =>
      apply commit_of_not_ok
      intro v m h
      obtain ⟨_, _, _, hvalid, -⟩ := handled_ok.mp h
      obtain ⟨⟨a, ha⟩, hlen, hexp, -⟩ := register_validateBasic_ok.mp hvalid
      simp [registrant, hlen, hexp, ha, Except.toOption] at hr

theorem mint_verified {msg : MsgMintZYTD} {r : SdkInt} (h : mintZYTD ctx msg s = .ok r t) :
    ∃ sender, A.accAddressFromBech32 msg.sender = .ok sender ∧
      checkMintAllowed ctx.height = .ok () ∧
      verifyZYTDPQCSig ctx sender msg.ibcDenom msg.expirationBlockHeight msg.dilithium5PubKey
        msg.dilithium5Sig s = .ok () s := by
  simp only [mintZYTD, mintTerms, bind_ok, address_ok, ofExcept_ok] at h
  obtain ⟨_, _, ⟨sender, _, ⟨hsender, rfl⟩, _, _, ⟨hallowed, rfl⟩, _, _, hsig, -⟩, -⟩ := h
  obtain rfl := verifyZYTDPQCSig_ok hsig
  exact ⟨sender, hsender, hallowed, hsig⟩

/-- One input moves an account's key as its own registrations do. -/
theorem registeredKey_advance (s : State) (i : Input A) (a : AccAddress) :
    registeredKey A (advance s i) a = noteKey a (registeredKey A s a) i := by
  cases i with
  | environment outside => rfl
  | message ctx z =>
      cases z with
      | register msg =>
          simp only [advance, noteKey, registeredKey, commit_register]
          cases hr : registrant A msg with
          | none => simp
          | some b =>
              simp only [Option.some.injEq, Store.get_set]
              by_cases hab : b = a
              · simp [hab]
              · have hne : pqcKeyRegistryKey A a ≠ pqcKeyRegistryKey A b := fun h =>
                  hab (pqcKeyRegistryKey_inj h).symm
                simp [hab, hne]
      | _ =>
          refine commit_preserves (P := fun t => registeredKey A t a = registeredKey A s a) rfl ?_
          intro v t h
          obtain ⟨msg, r, -, hmint⟩ | ⟨msg, sender, hz, -⟩ := exec_ok h
          · obtain ⟨-, hkeys⟩ := outsideDebt_read ((mintZYTD_keeps ctx msg).ok hmint)
            simp only [registeredKey, hkeys]
          · cases hz

end Steps

section Gates
variable {A : App}

/-- The registry holds, for every account, what the account registered last. -/
theorem registeredKey_run (s₀ : State) (inputs : List (Input A)) (a : AccAddress) :
    registeredKey A (run advance s₀ inputs) a = latestKey a (registeredKey A s₀ a) inputs := by
  induction inputs generalizing s₀ with
  | nil => rfl
  | cons i inputs ih =>
      rw [run_cons, ih, registeredKey_advance]
      rfl

theorem phase2_of_height {height : Int64} (h₁ : 20000 < height) (h₂ : height ≤ 50000) :
    getMigrationPhase height = .phase2 := by
  have hlock : ¬ height ≤ gracePhaseLockHeight := Int64.not_le.mpr h₁
  have hhard : height ≤ gracePhaseHardHeight := h₂
  simp [getMigrationPhase, hlock, hhard]

theorem phase3_of_height {height : Int64} (h : 50000 < height) :
    getMigrationPhase height = .phase3 := by
  have hlock : ¬ height ≤ gracePhaseLockHeight :=
    Int64.not_le.mpr (Int64.lt_trans (by decide) h)
  have hhard : ¬ height ≤ gracePhaseHardHeight := Int64.not_le.mpr h
  simp [getMigrationPhase, hlock, hhard]

/-- In the second phase the debt ledgers are left as they are. -/
theorem frozen_in_phase2 {ctx : Ctx A} {z : ZytdMsg} (s : State)
    (hphase : getMigrationPhase ctx.height = .phase2) :
    (commit (z.exec ctx) s).totalSupply = s.totalSupply ∧
      (commit (z.exec ctx) s).records = s.records := by
  refine commit_preserves (P := fun t : State => t.totalSupply = s.totalSupply ∧
    t.records = s.records)
    ⟨rfl, rfl⟩ ?_
  intro u t h
  obtain ⟨msg, r, -, hmint⟩ | ⟨msg, sender, -, -, rfl⟩ := exec_ok h
  · obtain ⟨_, -, hallowed, -⟩ := mint_verified hmint
    simp [checkMintAllowed, hphase] at hallowed
  · exact ⟨rfl, rfl⟩

/-- An operation that returns passed the signature check of its sender. -/
theorem operation_verified {ctx : Ctx A} {z : ZytdMsg} {f : Signed} {s t : State} {u : Unit}
    (hf : z.signed = some f) (h : z.exec ctx s = .ok u t) :
    ∃ sender, A.accAddressFromBech32 f.sender = .ok sender ∧
      verifyZYTDPQCSig ctx sender f.ibcDenom f.expirationBlockHeight f.dilithium5PubKey
        f.dilithium5Sig s = .ok () s := by
  obtain ⟨msg, r, rfl, hmint⟩ | ⟨msg, sender, rfl, -⟩ := exec_ok h
  · obtain rfl := Option.some.inj hf
    obtain ⟨sender, hsender, -, hsig⟩ := mint_verified hmint
    exact ⟨sender, hsender, hsig⟩
  · cases hf

/-- A signature of the message that is valid under `key`, which the message
itself supplies. -/
def SignedWith (A : App) (f : Signed) (sender : AccAddress) (key : List UInt8) : Prop :=
  f.dilithium5PubKey = key ∧ A.pqcVerify
    (buildZYTDMsgHash A sender f.ibcDenom f.expirationBlockHeight) f.dilithium5Sig key = true

/-- What the gates let a message in a block do, given the key each account
registered last. -/
structure Gated (ctx : Ctx A) (z : ZytdMsg) (keyOf : AccAddress → Option (List UInt8))
    (s t : State) : Prop where
  frozen : 20000 < ctx.height → ctx.height ≤ 50000 →
    (totalSupplyOf t).val ≤ (totalSupplyOf s).val ∧
    ∀ k record, t.records.get k = some record →
      ∃ old, s.records.get k = some old ∧ record.minted.val ≤ old.minted.val
  required : ∀ f u t', z.signed = some f → z.exec ctx s = .ok u t' → 50000 < ctx.height →
    ∃ sender key, A.accAddressFromBech32 f.sender = .ok sender ∧ keyOf sender = some key ∧
      SignedWith A f sender key
  latest : ∀ f u t' sender key, z.signed = some f → z.exec ctx s = .ok u t' →
    A.accAddressFromBech32 f.sender = .ok sender → keyOf sender = some key → SignedWith A f sender key
  own : ∀ a, registeredKey A t a ≠ registeredKey A s a →
    ∃ msg, z = .register msg ∧ A.accAddressFromBech32 msg.sender = .ok a ∧
      registeredKey A t a = some msg.dilithium5PubKey

/-- The gates hold at every message of every run, from any state. -/
theorem migration_gates (s₀ : State) (before : List (Input A)) (ctx : Ctx A) (z : ZytdMsg) :
    Gated ctx z (fun a => latestKey a (registeredKey A s₀ a) before) (run advance s₀ before)
      (run advance s₀ (before ++ [.message ctx z])) := by
  rw [run_snoc]
  have hkeys := registeredKey_run s₀ before
  generalize run advance s₀ before = s at hkeys ⊢
  refine ⟨?_, ?_, ?_, ?_⟩
  · intro h₁ h₂
    obtain ⟨hsupply, hrecords⟩ := frozen_in_phase2 (z := z) s (phase2_of_height h₁ h₂)
    simp only [advance, totalSupplyOf, hsupply, hrecords]
    exact ⟨le_refl _, fun k record hk => ⟨record, hk, le_refl _⟩⟩
  · intro f u t' hf h hheight
    obtain ⟨sender, hsender, hsig⟩ := operation_verified hf h
    have hchecked := verifyZYTDPQCSig_checked hsig
    cases hkey : s.pqcKeys.get (pqcKeyRegistryKey A sender) with
    | none =>
        rw [hkey] at hchecked
        exact (hchecked (phase3_of_height hheight)).elim
    | some key =>
        rw [hkey] at hchecked
        exact ⟨sender, key, hsender, (hkeys sender).symm.trans hkey, hchecked⟩
  · intro f u t' sender key hf h hsender hkey
    obtain ⟨sender', hsender', hsig⟩ := operation_verified hf h
    obtain rfl : sender = sender' := Except.ok.inj (hsender.symm.trans hsender')
    have hchecked := verifyZYTDPQCSig_checked hsig
    have hstored : s.pqcKeys.get (pqcKeyRegistryKey A sender) = some key :=
      (hkeys sender).trans hkey
    rwa [hstored] at hchecked
  · intro a hne
    rw [registeredKey_advance] at hne ⊢
    cases z with
    | register msg =>
        simp only [noteKey] at hne ⊢
        split_ifs at hne with hr
        · refine ⟨msg, rfl, registrant_sender hr, if_pos hr⟩
        · exact (hne rfl).elim
    | _ => exact (hne rfl).elim

end Gates

end Zytherion.MigrationGate
