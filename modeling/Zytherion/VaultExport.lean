import Zytherion.VaultGenesis
import Zytherion.DebtLedgers
import Zytherion.VaultFrames

/-!
# Exporting the vault and starting again

An export lists the assets and the positions in the order of their keys and leaves
the counters out. Importing it adds the amounts up again. After a run from default
genesis a counter equals the sum of the positions of its denomination and a position
stands under the key of its own fields, so that the vault comes back as it was.
-/
namespace Zytherion.VaultExport

open GoCall KeyedStore SdkMath Application ChainState Bank CollateralKeeper Chain
open StablecoinMsgServer DebtBook DebtLedgers VaultSolvency VaultGenesis

def assetEntry (asset : CollateralAsset) : GenesisAsset :=
  ⟨asset.ibcDenom, asset.baseDenom, some asset.minRatio, some asset.liquidationThreshold,
    asset.isActive⟩

def positionEntry (pos : CollateralPosition) : GenesisPosition :=
  ⟨pos.owner, pos.ibcDenom, some pos.amount, pos.lockedAt, some pos.mintedZYTD⟩

def getAllCollateralAssets (s : State) : List CollateralAsset := s.assets.inKeyOrder

def getAllPositions (s : State) : List CollateralPosition := s.positions.inKeyOrder

def exportGenesis (s : State) : GenesisState where
  collateralAssets := (getAllCollateralAssets s).map assetEntry
  positions := (getAllPositions s).map positionEntry

/-- A chain whose vault holds nothing. -/
def emptied (s : State) : State := { s with assets := ∅, positions := ∅, locked := ∅ }

/-! The books of a run, whoever signs. -/

/-- The counters are the sums of the positions, which name a denomination. -/
structure Booked (s : State) : Prop where
  counted : ∀ d, (totalLocked s d).val = lockedSum s d
  denom : ∀ k pos, s.positions.get k = some pos → pos.ibcDenom ≠ ""

section Steps
variable {A : App} {s₀ s t : State} {d : String} {n : ℤ}

theorem denom_ne_empty (h : validateDenom d = true) : d ≠ "" := by
  rintro rfl
  exact absurd h (by decide)

/-- The amounts and debts of a state whose ledgers agree. -/
theorem ledgers_nonneg (hs : Ledgers A s₀ s) (k : String) (pos : CollateralPosition)
    (hp : s.positions.get k = some pos) : 0 ≤ pos.amount.val ∧ 0 ≤ pos.mintedZYTD.val := by
  obtain ⟨owner, -, rfl⟩ := hs.keyed k pos hp
  have hline := bookOf_found (A := A) hp
  have hamount := hs.secured.amount_nonneg (owner, pos.ibcDenom)
  have hdebt := hs.secured.debt_nonneg (owner, pos.ibcDenom)
  rw [hline] at hamount hdebt
  exact ⟨hamount, hdebt⟩

/-- One entry is rewritten and the counter of its denomination moves with it. -/
theorem Booked.put (hs : Booked s) (hk : Keyed A s) (owner : AccAddress)
    (entry : Option CollateralPosition) (hd : validateDenom d = true)
    (hnamed : ∀ pos, entry = some pos → pos.ibcDenom = d)
    (hpositions : t.positions = s.positions.put (positionKey A owner d) entry)
    (hamount : Store.share (amountOf d) entry =
      Store.share (amountOf d) (s.positions.get (positionKey A owner d)) + n)
    (hcounter : ∀ e, (totalLocked t e).val = (totalLocked s e).val + if e = d then n else 0) :
    Booked t where
  counted e := by
    rw [hcounter e, hs.counted e, lockedSum_put hk hnamed hpositions hamount]
  denom k pos hp := by
    rw [hpositions, Store.get_put] at hp
    split_ifs at hp with hkey
    · rw [hnamed pos hp]
      exact denom_ne_empty hd
    · exact hs.denom k pos hp

theorem Effect.booked {e : Event A} (hl : Ledgers A s₀ s) (hs : Booked s) (h : Effect e s t) :
    Booked t := by
  cases h with
  | quiet frame =>
      rw [frame]
      exact ⟨hs.counted, hs.denom⟩
  | deposited ctx owner d n signed positive done =>
      obtain ⟨v, hv, hpos⟩ := done.position
      obtain ⟨w, hw, hlocked⟩ := done.counter
      have hdenom := (hl.keyed.positionOr ctx owner d).2
      refine hs.put hl.keyed owner (some { positionOr ctx s owner d with amount := v })
        done.denom ?_ hpos ?_ (totalLocked_change hw hlocked)
      · rintro pos ⟨⟩
        exact hdenom
      · rw [share_positionOr hl.keyed ctx, ← hv]
        simp [amountOf, hdenom]
  | withdrawn owner d n pos signed positive found debtFree done =>
      obtain ⟨v, hv, hpos⟩ := done.position
      obtain ⟨w, hw, hlocked⟩ := done.counter
      have hdenom := (hl.keyed.at found).2
      have hle := done.le_amount
      have hcount := amount_le_lockedSum hl.keyed (ledgers_nonneg hl) found
      rw [← hs.counted d] at hcount
      have hmoved : w.val = (totalLocked s d).val + -n := by omega
      refine hs.put hl.keyed owner (if v.val = 0 then none else some { pos with amount := v })
        done.denom ?_ ?_ ?_ (totalLocked_change hmoved hlocked)
      · intro pos' hentry
        split_ifs at hentry
        cases hentry
        exact hdenom
      · rw [hpos]
        split_ifs <;> rfl
      · rw [found, Store.share_some, share_remaining v hdenom, amountOf, if_pos hdenom]
        omega
  | minted ctx req terms signed deposit debt done =>
      obtain ⟨v, w, hv, -, -, hpos⟩ := done.position
      obtain ⟨total, htotal, hlocked⟩ := done.counter
      have hdenom := (hl.keyed.positionOr ctx terms.sender req.ibcDenom).2
      refine hs.put hl.keyed terms.sender (some { positionOr ctx s terms.sender req.ibcDenom with
        amount := v, mintedZYTD := w }) done.denom ?_ hpos ?_ (totalLocked_change htotal hlocked)
      · rintro pos ⟨⟩
        exact hdenom
      · rw [share_positionOr hl.keyed ctx, ← hv]
        simp [amountOf, hdenom]

end Steps

theorem run_booked (A : App) (b : BankGenesis) (events : List (Event A)) :
    Booked (run step (genesis A b) events) := by
  induction events using List.reverseRecOn with
  | nil =>
      rw [run, List.foldl_nil, genesis_eq]
      refine ⟨fun d => rfl, fun k pos hp => ?_⟩
      simp [BankGenesis.blank] at hp
  | append_singleton events e ih =>
      rw [run_snoc]
      exact Effect.booked (run_ledgers A b events) ih (step_effect (run_ledgers A b events) e)

/-! What an import makes of an export. -/

section Import
variable {A : App} {s : State}

theorem export_restored (s : State) :
    (exportGenesis s).positions.map restored = getAllPositions s := by
  rw [exportGenesis, List.map_map]
  exact List.map_id _

theorem export_stored (s : State) :
    (exportGenesis s).collateralAssets.map GenesisAsset.stored = getAllCollateralAssets s := by
  rw [exportGenesis, List.map_map]
  exact List.map_id _

/-- The export lists what the counters count. -/
theorem listed_export (s : State) (d : String) : listed (exportGenesis s).positions d =
    lockedSum s d := by
  rw [listed, export_restored]
  exact ((Store.inKeyOrder_perm s.positions).map (amountOf d)).sum_eq

theorem initPositions_keeps (ps : List GenesisPosition) :
    Keeps State.assets (List.forM ps (initPosition A)) := by
  have hset : ∀ pos, Keeps State.assets (setPosition A pos) := fun pos =>
    (VaultFrames.setPosition_keeps pos).map State.assets
  have hinit : ∀ p, Keeps State.assets (initPosition A p) := fun p =>
    .bind (hset _) fun _ => .bind (.gets _) fun _ => .bind (.liftM _) fun _ =>
      .modifyStore fun _ => rfl
  exact .forM hinit ps

/-- An import restores what was exported from a state whose counters count its positions
and whose entries stand under their own keys. -/
theorem import_export (hbooked : Booked s) (hkeyed : Keyed A s)
    (hassets : ∀ k asset, s.assets.get k = some asset → assetKey asset.ibcDenom = k)
    (hdenoms : ∀ asset ∈ getAllCollateralAssets s, asset.ibcDenom ≠ "")
    (hcomplete : ∀ p ∈ (exportGenesis s).positions, Complete p) (outside : State) :
    ∃ t, VaultGenesis.initGenesis A (exportGenesis s) (emptied outside) = .ok () t ∧
      (∀ owner d, t.positions.get (positionKey A owner d) =
        s.positions.get (positionKey A owner d)) ∧
      (∀ d, t.assets.get (assetKey d) = s.assets.get (assetKey d)) ∧
      ∀ d, totalLocked t d = totalLocked s d := by
  -- the assets are registered first, on an empty vault
  have hregistered := initAssets_eq (s := emptied outside) hdenoms
  generalize hst : (emptied outside).assets.restore (fun a => some (assetKey a.ibcDenom))
    (getAllCollateralAssets s) = st at hregistered
  have hzero : ∀ d, (totalLocked { emptied outside with assets := st } d).val = 0 := fun _ => rfl
  obtain ⟨t, ht⟩ := initPositions_returns (A := A) (complete_nonneg hcomplete)
    (fun d => (hzero d).ge) fun d => by
      rw [hzero d, zero_add, listed_export, ← hbooked.counted d]
      exact (totalLocked s d).lt_bound
  obtain ⟨hpositions, hcounted⟩ := initPositions_ok ht
  refine ⟨t, ?_, ?_, ?_, ?_⟩
  · rw [VaultGenesis.initGenesis, export_stored]
    exact (bind_ok _ _).mpr ⟨(), _, hregistered, ht⟩
  · intro owner d
    rw [hpositions, export_restored]
    refine Store.get_restore_perm (entryKey A) (fun k pos hget => ?_) (Store.inKeyOrder_perm _) _
    obtain ⟨holder, hholder, hkey⟩ := hkeyed k pos hget
    exact entryKey_some.mpr ⟨holder, hholder, hkey.symm⟩
  · intro d
    have hkept : t.assets = st := (initPositions_keeps _).ok ht
    rw [hkept, ← hst]
    exact Store.get_restore_perm _ (fun k asset hget => congrArg some (hassets k asset hget))
      (Store.inKeyOrder_perm _) _
  · intro d
    apply SdkInt.ext_val
    rw [hcounted d, hzero d, zero_add, listed_export, hbooked.counted d]

end Import

theorem defaultAssetStore_perm : defaultAssetStore.values.Perm defaultCollateralAssets := by
  decide +kernel

theorem defaultAssetStore_keyed (k : String) (asset : CollateralAsset)
    (h : defaultAssetStore.get k = some asset) : assetKey asset.ibcDenom = k := by
  have hentries : ∀ e ∈ defaultAssetStore.entries, assetKey e.2.ibcDenom = e.1 := by
    decide +kernel
  exact hentries ⟨k, asset⟩ (AList.mem_lookup_iff.mp h)

section Exports
variable (A : App) (b : BankGenesis) (events : List (Event A))

theorem export_assets_valid :
    AssetsValid [] (exportGenesis (run step (genesis A b) events)).collateralAssets := by
  have hperm : (exportGenesis (run step (genesis A b) events)).collateralAssets.Perm
      defaultFile := by
    have hvalues := (Store.inKeyOrder_perm defaultAssetStore).trans defaultAssetStore_perm
    rw [exportGenesis, getAllCollateralAssets, run_assets]
    exact hvalues.map assetEntry
  refine ⟨fun asset hasset => defaultFile_valid.each asset (hperm.subset hasset), ?_⟩
  exact (hperm.map _).nodup_iff.mpr defaultFile_valid.distinct

theorem export_positions_complete :
    ∀ p ∈ (exportGenesis (run step (genesis A b) events)).positions, Complete p := by
  intro p hp
  obtain ⟨pos, hpos, rfl⟩ := List.mem_map.mp hp
  obtain ⟨k, hget⟩ := (Store.mem_values_iff _ _).mp ((Store.inKeyOrder_perm _).subset hpos)
  obtain ⟨hamount, hdebt⟩ := ledgers_nonneg (run_ledgers A b events) k pos hget
  obtain ⟨owner, howner, -⟩ := (run_ledgers A b events).keyed k pos hget
  have hne : pos.owner ≠ "" := by
    intro hempty
    rw [hempty] at howner
    exact absurd howner (by simp [App.accAddressFromBech32])
  exact ⟨hne, (run_booked A b events).denom k pos hget, ⟨_, rfl, hamount⟩, ⟨_, rfl, hdebt⟩⟩

/-- After any run from default genesis, by any accounts and with any prices, the export
is valid, and imported into an empty vault it restores every position, every asset
and every counter. -/
theorem export_import_inverse (outside : State) :
    (exportGenesis (run step (genesis A b) events)).validate (emptied outside) =
        .ok () (emptied outside) ∧
      ∃ t, VaultGenesis.initGenesis A (exportGenesis (run step (genesis A b) events))
          (emptied outside) = .ok () t ∧
        (∀ owner d, t.positions.get (positionKey A owner d) =
          (run step (genesis A b) events).positions.get (positionKey A owner d)) ∧
        (∀ d, t.assets.get (assetKey d) =
          (run step (genesis A b) events).assets.get (assetKey d)) ∧
        ∀ d, totalLocked t d = totalLocked (run step (genesis A b) events) d := by
  have hassets := export_assets_valid A b events
  have hcomplete := export_positions_complete A b events
  refine ⟨validate_ok.mpr ⟨hassets, hcomplete, rfl⟩, ?_⟩
  refine import_export (run_booked A b events) (run_ledgers A b events).keyed ?_ ?_ hcomplete
    outside
  · intro k asset hget
    rw [run_assets] at hget
    exact defaultAssetStore_keyed k asset hget
  · intro asset hasset
    exact (hassets.each _ (List.mem_map_of_mem hasset)).1

end Exports

end Zytherion.VaultExport
