import Zytherion.Chain
import Zytherion.VaultSolvency
import Zytherion.RestoredStores

/-!
# Restoring the vault from a genesis file

A genesis file is JSON, so a number may be missing. Validation asks a missing
amount whether it is negative, which panics. What it lets through may name one
owner twice or an owner that cannot be read: the counter of the denomination adds
every entry, while the position store keeps the last entry of a key and none of an
unreadable owner.
-/
namespace Zytherion.VaultGenesis

open GoCall KeyedStore SdkMath Application ChainState CollateralKeeper Chain VaultSolvency Devnet

/-- An asset of the whitelist as a genesis file has it. -/
structure GenesisAsset where
  ibcDenom : String
  baseDenom : String
  minRatio : Option Dec
  liquidationThreshold : Option Dec
  isActive : Bool

structure GenesisState where
  collateralAssets : List GenesisAsset
  positions : List GenesisPosition

/-- The asset as the store returns it, where a missing ratio reads as zero. -/
def GenesisAsset.stored (asset : GenesisAsset) : CollateralAsset where
  ibcDenom := asset.ibcDenom
  baseDenom := asset.baseDenom
  minRatio := asset.minRatio.getD ⟨0⟩
  liquidationThreshold := asset.liquidationThreshold.getD ⟨0⟩
  isActive := asset.isActive

/-- A ratio that is neither missing nor negative. -/
def ratioGiven (ratio : Option Dec) : Bool := ratio.any fun r => decide (0 ≤ r.raw)

def validateAssets : List String → List GenesisAsset → Exec Unit
  | _, [] => pure ()
  | seen, asset :: rest => do
      require (asset.ibcDenom != "") (.plain "collateral asset has empty ibc_denom")
      require (!seen.contains asset.ibcDenom)
        (.plain ("duplicate collateral asset ibc_denom: " ++ asset.ibcDenom))
      require (ratioGiven asset.minRatio)
        (.plain ("invalid min_ratio for asset " ++ asset.ibcDenom))
      require (ratioGiven asset.liquidationThreshold)
        (.plain ("invalid liquidation_threshold for asset " ++ asset.ibcDenom))
      validateAssets (asset.ibcDenom :: seen) rest

/-- The sign of a missing number is asked of a nil pointer. -/
def validatePosition (pos : GenesisPosition) : Exec Unit := do
  require (pos.owner != "") (.plain "collateral position has empty owner")
  require (pos.ibcDenom != "")
    (.plain ("collateral position for owner " ++ pos.owner ++ " has empty ibc_denom"))
  let amount ← orPanic pos.amount "nil pointer dereference"
  require (!amount.isNegative)
    (.plain ("collateral position for owner " ++ pos.owner ++ "/" ++ pos.ibcDenom ++
      " has negative amount"))
  let minted ← orPanic pos.mintedZYTD "nil pointer dereference"
  require (!minted.isNegative)
    (.plain ("collateral position for owner " ++ pos.owner ++ "/" ++ pos.ibcDenom ++
      " has negative minted_zytd"))

def GenesisState.validate (gs : GenesisState) : Exec Unit := do
  validateAssets [] gs.collateralAssets
  gs.positions.forM validatePosition

def initGenesis (A : App) (gs : GenesisState) : Exec Unit :=
  initCollateral A ⟨gs.collateralAssets.map GenesisAsset.stored, gs.positions⟩

/-- Validation returns, and a genesis that it accepts starts a vault, on any chain
state without collateral, whose counters equal the sums of the positions. -/
def StartsSolvent (A : App) (gs : GenesisState) : Prop :=
  ∀ s : State, s.assets = ∅ → s.positions = ∅ → s.locked = ∅ →
    (gs.validate s).panicked = false ∧
      (gs.validate s = .ok () s →
        ∃ t, initGenesis A gs s = .ok () t ∧ ∀ d, (totalLocked t d).val = lockedSum t d)

section Validation
variable {s t : State} {u : Unit}

/-- Denominations given and not repeated, ratios given and not negative. -/
structure AssetsValid (seen : List String) (assets : List GenesisAsset) : Prop where
  each : ∀ asset ∈ assets, asset.ibcDenom ≠ "" ∧ asset.ibcDenom ∉ seen ∧
    ratioGiven asset.minRatio = true ∧ ratioGiven asset.liquidationThreshold = true
  distinct : (assets.map GenesisAsset.ibcDenom).Nodup

theorem assetsValid_cons {seen : List String} {asset : GenesisAsset} {rest : List GenesisAsset} :
    AssetsValid seen (asset :: rest) ↔ asset.ibcDenom ≠ "" ∧ asset.ibcDenom ∉ seen ∧
      ratioGiven asset.minRatio = true ∧ ratioGiven asset.liquidationThreshold = true ∧
      AssetsValid (asset.ibcDenom :: seen) rest := by
  constructor
  · rintro ⟨heach, hdistinct⟩
    obtain ⟨⟨hdenom, hnew, hmin, hthreshold⟩, hrest⟩ := List.forall_mem_cons.mp heach
    obtain ⟨hhead, htail⟩ := List.nodup_cons.mp hdistinct
    refine ⟨hdenom, hnew, hmin, hthreshold, ?_, htail⟩
    intro other hother
    obtain ⟨h₁, h₂, h₃⟩ := hrest other hother
    refine ⟨h₁, ?_, h₃⟩
    rw [List.mem_cons, not_or]
    exact ⟨fun h => hhead (h ▸ List.mem_map_of_mem hother), h₂⟩
  · rintro ⟨hdenom, hnew, hmin, hthreshold, heach, hdistinct⟩
    refine ⟨List.forall_mem_cons.mpr ⟨⟨hdenom, hnew, hmin, hthreshold⟩, ?_⟩, ?_⟩
    · intro other hother
      obtain ⟨h₁, h₂, h₃⟩ := heach other hother
      exact ⟨h₁, fun h => h₂ (List.mem_cons_of_mem _ h), h₃⟩
    · refine List.nodup_cons.mpr ⟨?_, hdistinct⟩
      intro hmem
      obtain ⟨other, hother, heq⟩ := List.mem_map.mp hmem
      exact (heach other hother).2.1 (heq ▸ List.mem_cons_self)

theorem validateAssets_ok {seen : List String} {assets : List GenesisAsset} :
    validateAssets seen assets s = .ok u t ↔ AssetsValid seen assets ∧ s = t := by
  induction assets generalizing seen s with
  | nil =>
      simp only [validateAssets, pure_ok, true_and]
      exact ⟨fun h => ⟨⟨by simp, List.nodup_nil⟩, h⟩, fun h => h.2⟩
  | cons asset rest ih =>
      simp only [validateAssets, bind_ok, require_ok, ih, assetsValid_cons, bne_iff_ne,
        Bool.not_eq_true', List.contains_eq_mem, decide_eq_false_iff_not]
      constructor
      · rintro ⟨_, _, ⟨h₁, rfl⟩, _, _, ⟨h₂, rfl⟩, _, _, ⟨h₃, rfl⟩, _, _, ⟨h₄, rfl⟩, h₅, rfl⟩
        exact ⟨⟨h₁, h₂, h₃, h₄, h₅⟩, rfl⟩
      · rintro ⟨⟨h₁, h₂, h₃, h₄, h₅⟩, rfl⟩
        exact ⟨(), s, ⟨h₁, rfl⟩, (), s, ⟨h₂, rfl⟩, (), s, ⟨h₃, rfl⟩, (), s, ⟨h₄, rfl⟩, h₅, rfl⟩

/-- The assets hold no number whose sign is asked before it is known to be there. -/
theorem validateAssets_panicked (seen : List String) (assets : List GenesisAsset) :
    (validateAssets seen assets s).panicked = false := by
  rw [← Bool.not_eq_true]
  induction assets generalizing seen with
  | nil => simp [validateAssets]
  | cons asset rest ih =>
      intro h
      simp only [validateAssets, bind_panicked, require_panicked, require_ok, Bool.false_eq_true,
        false_or] at h
      obtain ⟨_, _, ⟨-, rfl⟩, _, _, ⟨-, rfl⟩, _, _, ⟨-, rfl⟩, _, _, ⟨-, rfl⟩, h⟩ := h
      exact ih _ h

/-- Everything validation asks of a position is there and in order. -/
def Complete (pos : GenesisPosition) : Prop :=
  pos.owner ≠ "" ∧ pos.ibcDenom ≠ "" ∧ (∃ n, pos.amount = some n ∧ 0 ≤ n.val) ∧
    ∃ n, pos.mintedZYTD = some n ∧ 0 ≤ n.val

/-- Validation comes to a number that is missing. -/
def AsksMissing (pos : GenesisPosition) : Prop :=
  pos.owner ≠ "" ∧ pos.ibcDenom ≠ "" ∧
    (pos.amount = none ∨ (∃ n, pos.amount = some n ∧ 0 ≤ n.val) ∧ pos.mintedZYTD = none)

theorem validatePosition_ok {pos : GenesisPosition} :
    validatePosition pos s = .ok u t ↔ Complete pos ∧ s = t := by
  simp only [validatePosition, bind_ok, require_ok, liftM_ok, orPanic_ok, bne_iff_ne,
    Bool.not_eq_true', SdkInt.isNegative_eq_false]
  constructor
  · rintro ⟨_, _, ⟨howner, rfl⟩, _, _, ⟨hdenom, rfl⟩, n, _, ⟨hn, rfl⟩, _, _, ⟨hn', rfl⟩, m, _,
      ⟨hm, rfl⟩, hm', rfl⟩
    exact ⟨⟨howner, hdenom, ⟨n, hn, hn'⟩, m, hm, hm'⟩, rfl⟩
  · rintro ⟨⟨howner, hdenom, ⟨n, hn, hn'⟩, m, hm, hm'⟩, rfl⟩
    exact ⟨(), s, ⟨howner, rfl⟩, (), s, ⟨hdenom, rfl⟩, n, s, ⟨hn, rfl⟩, (), s, ⟨hn', rfl⟩, m, s,
      ⟨hm, rfl⟩, hm', rfl⟩

theorem validatePosition_panicked {pos : GenesisPosition} :
    (validatePosition pos s).panicked = true ↔ AsksMissing pos := by
  simp only [validatePosition, bind_panicked, require_panicked, require_ok, liftM_ok, orPanic_ok,
    liftM_orPanic_panicked, bne_iff_ne, Bool.not_eq_true', SdkInt.isNegative_eq_false,
    Bool.false_eq_true, false_or, and_false, exists_false, or_false]
  constructor
  · rintro ⟨_, _, ⟨howner, rfl⟩, _, _, ⟨hdenom, rfl⟩,
      hmissing | ⟨n, _, ⟨hn, rfl⟩, _, _, ⟨hn', rfl⟩, hm⟩⟩
    · exact ⟨howner, hdenom, .inl hmissing⟩
    · exact ⟨howner, hdenom, .inr ⟨⟨n, hn, hn'⟩, hm⟩⟩
  · rintro ⟨howner, hdenom, hmissing | ⟨⟨n, hn, hn'⟩, hm⟩⟩
    · exact ⟨(), s, ⟨howner, rfl⟩, (), s, ⟨hdenom, rfl⟩, .inl hmissing⟩
    · exact ⟨(), s, ⟨howner, rfl⟩, (), s, ⟨hdenom, rfl⟩,
        .inr ⟨n, s, ⟨hn, rfl⟩, (), s, ⟨hn', rfl⟩, hm⟩⟩

/-- Validation ends, with or without an error, before it comes to a missing number. -/
def NeverAsksMissing : List GenesisPosition → Prop
  | [] => True
  | pos :: rest => ¬ AsksMissing pos ∧ (Complete pos → NeverAsksMissing rest)

theorem validatePositions_ok {ps : List GenesisPosition} :
    List.forM ps validatePosition s = .ok u t ↔ (∀ pos ∈ ps, Complete pos) ∧ s = t := by
  induction ps with
  | nil => simp
  | cons pos ps ih =>
      rw [forM_cons_ok, List.forall_mem_cons]
      constructor
      · rintro ⟨m, hpos, hps⟩
        obtain ⟨hcomplete, rfl⟩ := validatePosition_ok.mp hpos
        obtain ⟨hall, rfl⟩ := ih.mp hps
        exact ⟨⟨hcomplete, hall⟩, rfl⟩
      · rintro ⟨⟨hcomplete, hall⟩, rfl⟩
        exact ⟨s, validatePosition_ok.mpr ⟨hcomplete, rfl⟩, ih.mpr ⟨hall, rfl⟩⟩

theorem validatePositions_panicked {ps : List GenesisPosition} :
    (List.forM ps validatePosition s).panicked = false ↔ NeverAsksMissing ps := by
  rw [← Bool.not_eq_true]
  induction ps with
  | nil => simp [NeverAsksMissing]
  | cons pos ps ih =>
      rw [forM_cons_panicked, not_or, validatePosition_panicked, NeverAsksMissing, not_exists]
      apply and_congr_right
      intro _
      constructor
      · intro h hcomplete
        exact ih.mp fun hps => h s ⟨validatePosition_ok.mpr ⟨hcomplete, rfl⟩, hps⟩
      · rintro h m ⟨hpos, hps⟩
        obtain ⟨hcomplete, rfl⟩ := validatePosition_ok.mp hpos
        exact ih.mpr (h hcomplete) hps

theorem validate_ok {gs : GenesisState} : gs.validate s = .ok u t ↔
    AssetsValid [] gs.collateralAssets ∧ (∀ pos ∈ gs.positions, Complete pos) ∧ s = t := by
  simp only [GenesisState.validate, bind_ok, validateAssets_ok]
  constructor
  · rintro ⟨_, _, ⟨hassets, rfl⟩, hps⟩
    exact ⟨hassets, validatePositions_ok.mp hps⟩
  · rintro ⟨hassets, hps⟩
    exact ⟨(), s, ⟨hassets, rfl⟩, validatePositions_ok.mpr hps⟩

theorem validate_panicked {gs : GenesisState} : (gs.validate s).panicked = false ↔
    (AssetsValid [] gs.collateralAssets → NeverAsksMissing gs.positions) := by
  rw [← validatePositions_panicked (s := s), ← Bool.not_eq_true, ← Bool.not_eq_true,
    GenesisState.validate, bind_panicked, validateAssets_panicked]
  simp only [Bool.false_eq_true, false_or, validateAssets_ok]
  constructor
  · intro h hassets hps
    exact h ⟨(), s, ⟨hassets, rfl⟩, hps⟩
  · rintro h ⟨_, _, ⟨hassets, rfl⟩, hps⟩
    exact h hassets hps

end Validation

section Initialisation
variable {A : App} {s t : State} {u : Unit}

/-- The position an entry of the file is stored as. -/
def restored (p : GenesisPosition) : CollateralPosition :=
  ⟨p.owner, p.ibcDenom, p.amount.getD .zero, p.lockedAt, p.mintedZYTD.getD .zero⟩

variable (A) in
/-- The key of a position, which needs its owner read. -/
def entryKey (pos : CollateralPosition) : Option String :=
  match A.accAddressFromBech32 pos.owner with
  | .ok owner => some (positionKey A owner pos.ibcDenom)
  | .error _ => none

theorem entryKey_some {pos : CollateralPosition} {k : String} : entryKey A pos = some k ↔
    ∃ owner, A.accAddressFromBech32 pos.owner = .ok owner ∧
      positionKey A owner pos.ibcDenom = k := by
  unfold entryKey
  cases A.accAddressFromBech32 pos.owner <;> simp

theorem entryKey_none {pos : CollateralPosition} : entryKey A pos = none ↔
    ∀ owner, A.accAddressFromBech32 pos.owner ≠ .ok owner := by
  unfold entryKey
  cases A.accAddressFromBech32 pos.owner <;> simp

theorem setPosition_write (pos : CollateralPosition) : setPosition A pos s =
    .ok () { s with positions := Store.write (entryKey A) s.positions pos } := by
  unfold setPosition Store.write entryKey
  cases A.accAddressFromBech32 pos.owner <;> rfl

/-- The amounts that the file gives for a denomination. -/
def listed (ps : List GenesisPosition) (d : String) : ℤ :=
  ((ps.map restored).map (amountOf d)).sum

theorem listed_cons (p : GenesisPosition) (ps : List GenesisPosition) (d : String) :
    listed (p :: ps) d =
      (if d = p.ibcDenom then (restored p).amount.val else 0) + listed ps d := by
  simp only [listed, List.map_cons, List.sum_cons, amountOf, restored, eq_comm]

theorem listed_nonneg {ps : List GenesisPosition} (h : ∀ p ∈ ps, 0 ≤ (restored p).amount.val)
    (d : String) : 0 ≤ listed ps d := by
  induction ps with
  | nil => exact le_refl 0
  | cons p ps ih =>
      obtain ⟨hp, hps⟩ := List.forall_mem_cons.mp h
      rw [listed_cons]
      have hrest := ih hps
      split_ifs <;> omega

/-- The stores after one entry. -/
def afterEntry (A : App) (s : State) (p : GenesisPosition) (w : SdkInt) : State :=
  { s with positions := Store.write (entryKey A) s.positions (restored p),
           locked := s.locked.set (lockedKey p.ibcDenom) w }

theorem initPosition_ok {p : GenesisPosition} : initPosition A p s = .ok u t ↔
    ∃ w : SdkInt, w.val = (totalLocked s p.ibcDenom).val + (restored p).amount.val ∧
      afterEntry A s p w = t := by
  simp only [initPosition, getTotalLocked, setTotalLocked, bind_ok, setPosition_write,
    Outcome.ok.injEq, true_and, gets_ok, liftM_ok, SdkInt.add_ok, modifyStore_ok]
  constructor
  · rintro ⟨_, _, rfl, _, _, ⟨rfl, rfl⟩, w, _, ⟨hw, rfl⟩, rfl⟩
    exact ⟨w, hw, rfl⟩
  · rintro ⟨w, hw, rfl⟩
    exact ⟨(), _, rfl, _, _, ⟨rfl, rfl⟩, w, _, ⟨hw, rfl⟩, rfl⟩

theorem totalLocked_afterEntry {p : GenesisPosition} {w : SdkInt}
    (hw : w.val = (totalLocked s p.ibcDenom).val + (restored p).amount.val)
    (ps : List GenesisPosition) (d : String) :
    (totalLocked (afterEntry A s p w) d).val + listed ps d =
      (totalLocked s d).val + listed (p :: ps) d := by
  rw [totalLocked_change (t := afterEntry A s p w) hw rfl, listed_cons, add_assoc]

theorem initPositions_ok {ps : List GenesisPosition}
    (h : List.forM ps (initPosition A) s = .ok u t) :
    t.positions = Store.restore (entryKey A) s.positions (ps.map restored) ∧
      ∀ d, (totalLocked t d).val = (totalLocked s d).val + listed ps d := by
  induction ps generalizing s with
  | nil =>
      obtain ⟨-, rfl⟩ := (pure_ok _ _).mp h
      exact ⟨rfl, fun d => (add_zero _).symm⟩
  | cons p ps ih =>
      obtain ⟨m, hp, hps⟩ := (forM_cons_ok _ _ _ _).mp h
      obtain ⟨w, hw, rfl⟩ := initPosition_ok.mp hp
      obtain ⟨hpositions, hcounted⟩ := ih hps
      exact ⟨hpositions, fun d => (hcounted d).trans (totalLocked_afterEntry hw ps d)⟩

/-- No counter overflows on the way if none does at the end. -/
theorem initPositions_returns {ps : List GenesisPosition}
    (hamounts : ∀ p ∈ ps, 0 ≤ (restored p).amount.val) (hnonneg : ∀ d, 0 ≤ (totalLocked s d).val)
    (hfits : ∀ d, (totalLocked s d).val + listed ps d < intBound) :
    ∃ t, List.forM ps (initPosition A) s = .ok () t := by
  induction ps generalizing s with
  | nil => exact ⟨s, rfl⟩
  | cons p ps ih =>
      obtain ⟨hp, hps⟩ := List.forall_mem_cons.mp hamounts
      have hroom :
          ((totalLocked s p.ibcDenom).val + (restored p).amount.val).natAbs < intBound := by
        have hsum := hfits p.ibcDenom
        have hrest := listed_nonneg hps p.ibcDenom
        have hstart := hnonneg p.ibcDenom
        rw [listed_cons, if_pos rfl] at hsum
        omega
      obtain ⟨w, hw⟩ : ∃ w : SdkInt, w.val = (totalLocked s p.ibcDenom).val +
        (restored p).amount.val := ⟨⟨_, hroom⟩, rfl⟩
      obtain ⟨t, ht⟩ := ih (s := afterEntry A s p w) hps
        (fun d => by
          have hd := totalLocked_afterEntry (A := A) hw [] d
          have hgiven : 0 ≤ listed [p] d := listed_nonneg (by simpa using hp) d
          have hstart := hnonneg d
          have hnil : listed [] d = 0 := rfl
          omega)
        (fun d => by rw [totalLocked_afterEntry hw]; exact hfits d)
      exact ⟨t, (forM_cons_ok _ _ _ _).mpr ⟨_, initPosition_ok.mpr ⟨w, hw, rfl⟩, ht⟩⟩

theorem initAsset_returns {asset : CollateralAsset} (h : asset.ibcDenom ≠ "") :
    initAsset asset s =
      .ok () { s with assets := s.assets.set (assetKey asset.ibcDenom) asset } := by
  have hregister : registerCollateralAsset asset s =
      .ok () { s with assets := s.assets.set (assetKey asset.ibcDenom) asset } := by
    simp [registerCollateralAsset, h]
  simp only [initAsset, must, hregister]

theorem initAssets_eq {assets : List CollateralAsset}
    (h : ∀ asset ∈ assets, asset.ibcDenom ≠ "") :
    List.forM assets initAsset s = .ok () { s with
      assets := s.assets.restore (fun a => some (assetKey a.ibcDenom)) assets } := by
  induction assets generalizing s with
  | nil => rfl
  | cons asset rest ih =>
      obtain ⟨hasset, hrest⟩ := List.forall_mem_cons.mp h
      exact (forM_cons_ok _ _ _ _).mpr ⟨_, initAsset_returns hasset, ih hrest⟩

end Initialisation

/-- What an entry adds to a counter without a position that holds it is zero: the
amount of an owner that cannot be read, and of an entry that a later one of the same
owner and denomination replaces. -/
structure CountedOnce (A : App) (ps : List GenesisPosition) : Prop where
  read : ∀ p ∈ ps, (∀ owner, A.accAddressFromBech32 p.owner ≠ .ok owner) →
    (restored p).amount.val = 0
  once : ps.Pairwise fun p q => ∀ owner, A.accAddressFromBech32 p.owner = .ok owner →
    A.accAddressFromBech32 q.owner = .ok owner → p.ibcDenom = q.ibcDenom →
      (restored p).amount.val = 0

section Books
variable {A : App} {ps : List GenesisPosition} {s : State}

theorem amountOf_restored {p : GenesisPosition} : (∀ d, amountOf d (restored p) = 0) ↔
    (restored p).amount.val = 0 := by
  constructor
  · intro h
    simpa [amountOf] using h (restored p).ibcDenom
  · intro h d
    simp [amountOf, h]

theorem sameKey_iff {p q : GenesisPosition} {k : String} :
    entryKey A (restored p) = some k ∧ entryKey A (restored q) = some k ↔
      ∃ owner, A.accAddressFromBech32 p.owner = .ok owner ∧
        A.accAddressFromBech32 q.owner = .ok owner ∧ p.ibcDenom = q.ibcDenom ∧
        positionKey A owner p.ibcDenom = k := by
  rw [entryKey_some, entryKey_some]
  constructor
  · rintro ⟨⟨owner, hp, rfl⟩, other, hq, hkey⟩
    obtain ⟨rfl, hdenom⟩ := positionKey_inj hkey
    exact ⟨other, hp, hq, hdenom.symm, rfl⟩
  · rintro ⟨owner, hp, hq, hdenom, rfl⟩
    exact ⟨⟨owner, hp, rfl⟩, owner, hq, congrArg (positionKey A owner) hdenom.symm⟩

theorem lossless_iff : (∀ d, Store.Lossless (entryKey A) (amountOf d) ∅ (ps.map restored)) ↔
    CountedOnce A ps := by
  constructor
  · intro h
    constructor
    · intro p hp hunread
      rw [← amountOf_restored]
      intro d
      exact (h d).keyed _ (List.mem_map_of_mem hp) (entryKey_none.mpr hunread)
    · rw [List.pairwise_iff_getElem]
      intro i j hi hj hij owner hp hq hdenom
      rw [← amountOf_restored]
      intro d
      have honce := (h d).once
      rw [List.pairwise_map, List.pairwise_iff_getElem] at honce
      obtain ⟨hpk, hqk⟩ := sameKey_iff.mpr ⟨owner, hp, hq, hdenom, rfl⟩
      exact honce i j hi hj hij _ hpk hqk
  · intro h d
    constructor
    · intro pos hpos hkey
      obtain ⟨p, hp, rfl⟩ := List.mem_map.mp hpos
      exact amountOf_restored.mpr (h.read p hp (entryKey_none.mp hkey)) d
    · intro pos hpos k hk
      rfl
    · rw [List.pairwise_map]
      apply h.once.imp
      intro p q honce k hp hq
      obtain ⟨owner, hpo, hqo, hdenom, -⟩ := sameKey_iff.mp ⟨hp, hq⟩
      exact amountOf_restored.mpr (honce owner hpo hqo hdenom) d

theorem totalLocked_empty (h : s.locked = ∅) (d : String) : totalLocked s d = .zero := by
  rw [totalLocked, h]
  rfl

/-- Restored into empty books, the counters equal the sums of the positions exactly
when every amount is counted once. -/
theorem books_agree_iff {t : State} (hamounts : ∀ p ∈ ps, 0 ≤ (restored p).amount.val)
    (hpositions : s.positions = ∅) (hlocked : s.locked = ∅)
    (h : List.forM ps (initPosition A) s = .ok () t) :
    (∀ d, (totalLocked t d).val = lockedSum t d) ↔ CountedOnce A ps := by
  obtain ⟨hstored, hcounted⟩ := initPositions_ok h
  rw [← lossless_iff]
  apply forall_congr'
  intro d
  have hweights : ∀ pos ∈ ps.map restored, 0 ≤ amountOf d pos := by
    intro pos hpos
    obtain ⟨p, hp, rfl⟩ := List.mem_map.mp hpos
    unfold amountOf
    split_ifs
    · exact hamounts p hp
    · exact le_refl 0
  have hsums := Store.total_restore_eq_iff (s := ∅) (entryKey A) (by simp) hweights
  rw [hcounted d, totalLocked_empty hlocked, lockedSum, hstored, hpositions, ← hsums,
    Store.total_empty, listed]
  simp only [SdkInt.zero_val, zero_add, eq_comm]

/-- Registering valid assets returns and touches nothing else. -/
theorem initGenesis_positions {gs : GenesisState} (A : App) (s : State)
    (hassets : AssetsValid [] gs.collateralAssets) : ∃ st, ∀ t,
      initGenesis A gs s = .ok () t ↔
        List.forM gs.positions (initPosition A) { s with assets := st } = .ok () t := by
  have hdenoms : ∀ asset ∈ gs.collateralAssets.map GenesisAsset.stored, asset.ibcDenom ≠ "" := by
    intro asset hasset
    obtain ⟨given, hgiven, rfl⟩ := List.mem_map.mp hasset
    exact (hassets.each given hgiven).1
  have hst := initAssets_eq (s := s) hdenoms
  refine ⟨s.assets.restore (fun a => some (assetKey a.ibcDenom))
    (gs.collateralAssets.map GenesisAsset.stored), ?_⟩
  intro t
  simp only [initGenesis, initCollateral, bind_ok, hst, Outcome.ok.injEq, true_and]
  constructor
  · rintro ⟨_, _, rfl, h⟩
    exact h
  · intro h
    exact ⟨(), _, rfl, h⟩

theorem complete_nonneg (h : ∀ p ∈ ps, Complete p) : ∀ p ∈ ps, 0 ≤ (restored p).amount.val := by
  intro p hp
  obtain ⟨-, -, ⟨n, hn, hn'⟩, -⟩ := h p hp
  simpa [restored, hn] using hn'

end Books

/-- What a file with valid assets needs for a solvent start. -/
theorem StartsSolvent.books {A : App} {gs : GenesisState} (h : StartsSolvent A gs)
    (hassets : AssetsValid [] gs.collateralAssets) :
    NeverAsksMissing gs.positions ∧
      ((∀ p ∈ gs.positions, Complete p) →
        CountedOnce A gs.positions ∧ ∀ d, listed gs.positions d < intBound) := by
  obtain ⟨hreturns, hbooks⟩ := h treasury.blank rfl rfl rfl
  refine ⟨validate_panicked.mp hreturns hassets, ?_⟩
  intro hcomplete
  obtain ⟨t, ht, hagree⟩ := hbooks (validate_ok.mpr ⟨hassets, hcomplete, rfl⟩)
  obtain ⟨st, hst⟩ := initGenesis_positions A treasury.blank hassets
  have hrun := (hst t).mp ht
  refine ⟨(books_agree_iff (complete_nonneg hcomplete) rfl rfl hrun).mp hagree, ?_⟩
  intro d
  have hcounted := (initPositions_ok hrun).2 d
  have hbound := (totalLocked t d).lt_bound
  rw [hcounted, totalLocked_empty (s := { treasury.blank with assets := st }) rfl] at hbound
  simpa using hbound

/-- A vault starts solvent from a genesis file exactly when the assets are refused,
or validation never comes to a missing number and, if every position is complete,
every amount is counted once and no counter overflows. -/
theorem starts_solvent_iff (A : App) (gs : GenesisState) : StartsSolvent A gs ↔
    (AssetsValid [] gs.collateralAssets →
      NeverAsksMissing gs.positions ∧
        ((∀ p ∈ gs.positions, Complete p) →
          CountedOnce A gs.positions ∧ ∀ d, listed gs.positions d < intBound)) := by
  constructor
  · exact StartsSolvent.books
  · intro h s _ hpositions hlocked
    refine ⟨validate_panicked.mpr fun hassets => (h hassets).1, ?_⟩
    intro hvalid
    obtain ⟨hassets, hcomplete, -⟩ := validate_ok.mp hvalid
    obtain ⟨honce, hfits⟩ := (h hassets).2 hcomplete
    obtain ⟨st, hst⟩ := initGenesis_positions A s hassets
    have hamounts := complete_nonneg hcomplete
    have hzero : ∀ d, (totalLocked { s with assets := st } d).val = 0 := fun d =>
      congrArg SdkInt.val (totalLocked_empty hlocked d)
    obtain ⟨t, ht⟩ := initPositions_returns (A := A) hamounts (fun d => (hzero d).ge)
      (fun d => by rw [hzero d, zero_add]; exact hfits d)
    exact ⟨t, (hst t).mpr ht,
      (books_agree_iff (s := { s with assets := st }) hamounts hpositions hlocked ht).mpr honce⟩

/-- The default whitelist as a genesis file has it. -/
def defaultFile : List GenesisAsset := defaultCollateralAssets.map fun asset =>
  ⟨asset.ibcDenom, asset.baseDenom, some asset.minRatio, some asset.liquidationThreshold,
    asset.isActive⟩

theorem defaultFile_valid : AssetsValid [] defaultFile := ⟨by decide, by decide⟩

/-- An entry over 100 of the chain's own collateral. -/
def entry (owner : String) : GenesisPosition :=
  ⟨owner, "uzytc", some (.newInt 100), 1700000000, some .zero⟩

theorem entry_complete {owner : String} (h : owner ≠ "") : Complete (entry owner) :=
  ⟨h, by show "uzytc" ≠ ""; decide, ⟨_, rfl, by decide⟩, ⟨_, rfl, by decide⟩⟩

theorem alice_text : devnet.text alice ≠ "" := by decide +kernel

theorem nobody_unread (owner : AccAddress) : devnet.accAddressFromBech32 "nobody" ≠ .ok owner :=
  entryKey_none.mp (by decide +kernel : entryKey devnet (restored (entry "nobody")) = none) owner

/-- One position of one owner starts a solvent vault. -/
theorem alice_starts_solvent :
    StartsSolvent devnet ⟨defaultFile, [entry (devnet.text alice)]⟩ := by
  rw [starts_solvent_iff]
  intro _
  refine ⟨⟨?_, fun _ => trivial⟩, fun _ => ⟨⟨?_, List.pairwise_singleton _ _⟩, ?_⟩⟩
  · rintro ⟨-, -, hmissing | ⟨-, hmissing⟩⟩ <;> cases hmissing
  · intro p hp hunread
    obtain rfl := List.mem_singleton.mp hp
    exact (hunread alice (devnet.accAddressFromBech32_text alice)).elim
  · intro d
    rw [listed_cons]
    split_ifs
    · show (100 + 0 : ℤ) < intBound
      decide
    · show (0 + 0 : ℤ) < intBound
      decide

/-- A missing amount makes validation panic. The same owner twice and an owner that
cannot be read pass it, and the counter then shows 200 and 100 where the positions
hold 100 and nothing. -/
theorem starts_insolvent :
    ¬ StartsSolvent devnet ⟨defaultFile, [⟨devnet.text alice, "uzytc", none, 0, none⟩]⟩ ∧
    ¬ StartsSolvent devnet ⟨defaultFile, [entry (devnet.text alice), entry (devnet.text alice)]⟩ ∧
    ¬ StartsSolvent devnet ⟨defaultFile, [entry "nobody"]⟩ := by
  have halice := entry_complete alice_text
  refine ⟨?_, ?_, ?_⟩
  · intro h
    obtain ⟨⟨hasked, -⟩, -⟩ := h.books defaultFile_valid
    exact hasked ⟨alice_text, halice.2.1, .inl rfl⟩
  · intro h
    obtain ⟨honce, -⟩ := (h.books defaultFile_valid).2 (by simpa using halice)
    have hfirst := (List.pairwise_cons.mp honce.once).1 _ List.mem_cons_self alice
      (devnet.accAddressFromBech32_text alice) (devnet.accAddressFromBech32_text alice) rfl
    exact absurd hfirst (by decide)
  · intro h
    have hcomplete : Complete (entry "nobody") := entry_complete (by decide)
    obtain ⟨honce, -⟩ := (h.books defaultFile_valid).2 (by simpa using hcomplete)
    exact absurd (honce.read _ List.mem_cons_self nobody_unread) (by decide)

end Zytherion.VaultGenesis
