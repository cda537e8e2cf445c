import Zytherion.Chain
import Zytherion.DebtBook

/-!
# One debt, four ledgers

The debt of an owner in a denomination is kept in the stablecoin's mint record
and in the collateral position; all records add up to the supply counter, and
the counter follows what the bank issued. While record and position agree, a
burn cannot pass the vault's debt guard, since it asks for a record that shows
debt and then for a position that shows none. What is left for a message to do
is listed by `Effect`; each entry of the list is an operation of the abstract
book of secured debt, and the invariants of a run follow from that.
-/
namespace Zytherion.DebtLedgers

open GoCall KeyedStore SdkMath Application ChainState Bank CollateralKeeper StablecoinKeeper
open CollateralMsgServer StablecoinMsgServer Chain DebtBook

section Debts
variable (A : App) (s : State) (owner : AccAddress) (d : String)

/-- The debt the mint record shows, zero without one. -/
def recordedDebt : ℤ :=
  Store.share (fun r => r.minted.val) (s.records.get (mintRecordKey A owner d))

/-- The debt the position shows, zero without one. -/
def positionDebt : ℤ :=
  Store.share (fun p => p.mintedZYTD.val) (s.positions.get (positionKey A owner d))

end Debts

def Agree (A : App) (s : State) : Prop := ∀ owner d, recordedDebt A s owner d = positionDebt A s owner d

/-- What a delivered event can do to a state whose ledgers agree. -/
inductive Effect {A : App} (e : Event A) (s t : State) : Prop where
  | quiet (frame : t = { s with twaps := t.twaps, pqcKeys := t.pqcKeys })
  | deposited (ctx : Ctx A) (owner : AccAddress) (d : String) (n : ℤ)
      (signed : e.signer = some owner) (positive : 0 < n) (done : Deposited ctx s t owner d n)
  | withdrawn (owner : AccAddress) (d : String) (n : ℤ) (pos : CollateralPosition)
      (signed : e.signer = some owner) (positive : 0 < n)
      (found : s.positions.get (positionKey A owner d) = some pos)
      (debtFree : pos.mintedZYTD.val ≤ 0) (done : Withdrawn A s t owner d n pos)
  | minted (ctx : Ctx A) (req : MsgMintZYTD) (terms : MintTerms)
      (signed : e.signer = some terms.sender) (deposit : 0 < terms.amount.val)
      (debt : 0 < terms.requested.val) (done : Minted ctx req s t terms)

section Steps
variable {A : App} {s t : State} {ctx : Ctx A} {u : Unit}

/-- A burn of a positive amount fails before the supply counter. -/
theorem burnBeforeSupply_fails (ha : Agree A s) {req : MsgBurnZYTD} {n : SdkInt}
    (hreq : req.zytdAmount = some n) (hn : 0 < n.val) (r : SdkInt × SdkInt) :
    burnBeforeSupply ctx req s ≠ .ok r t := by
  intro h
  obtain ⟨sender, record, n', pos, -, hrecord, hn', hle, hpos, hfree⟩ := burnBeforeSupply_debtFree h
  obtain rfl : n = n' := by
    rw [hreq] at hn'
    exact Option.some.inj hn'
  have hagree := ha sender req.ibcDenom
  simp only [recordedDebt, positionDebt, hrecord, hpos, Store.share_some] at hagree
  omega

theorem burnZYTD_fails (ha : Agree A s) {req : MsgBurnZYTD} {n : SdkInt}
    (hreq : req.zytdAmount = some n) (hn : 0 < n.val) (r : SdkInt) :
    burnZYTD ctx req s ≠ .ok r t := by
  intro h
  simp only [burnZYTD, bind_ok] at h
  obtain ⟨_, _, hbefore, -⟩ := h
  exact burnBeforeSupply_fails ha hreq hn _ hbefore

theorem liquidate_fails (ctx : Ctx A) (req : MsgLiquidate) (s t : State) (r : SdkInt) :
    liquidate ctx req s ≠ .ok r t := by
  intro h
  simp only [liquidate, bind_ok] at h
  obtain ⟨_, _, hbefore, -⟩ := h
  exact liquidateBeforeSupply_fails ctx req s _ _ hbefore

/-- Everything a delivered event can do. -/
theorem exec_effect (hk : Keyed A s) (ha : Agree A s) {e : Event A} (h : e.exec s = .ok u t) :
    Effect e s t := by
  cases e with
  | storeTWAP data =>
      simp only [Event.exec, setTWAP, modifyStore_ok] at h
      exact .quiet (by rw [← h])
  | lock ctx msg =>
      obtain ⟨_, _, _, hv, hh⟩ := handled_ok.mp h
      obtain ⟨-, -, ⟨n, hn, hpos⟩, rfl⟩ := validateFields_ok.mp hv
      obtain ⟨owner, n', howner, hn', hlock⟩ := msgLockCollateral_ok hh
      obtain rfl : n = n' := Option.some.inj (hn.symm.trans hn')
      exact .deposited ctx owner msg.ibcDenom n.val (by simp [Event.signer, howner, Except.toOption])
        hpos (lockCollateral_ok hk hlock)
  | unlock ctx msg =>
      obtain ⟨_, _, _, hv, hh⟩ := handled_ok.mp h
      obtain ⟨-, -, ⟨n, hn, hpos⟩, rfl⟩ := validateFields_ok.mp hv
      obtain ⟨owner, n', howner, hn', hunlock⟩ := msgUnlockCollateral_ok hh
      obtain rfl : n = n' := Option.some.inj (hn.symm.trans hn')
      obtain ⟨pos, hp, hfree, hw⟩ := unlockCollateral_ok hk hunlock
      exact .withdrawn owner msg.ibcDenom n.val pos
        (by simp [Event.signer, howner, Except.toOption]) hpos hp hfree hw
  | mint ctx msg =>
      obtain ⟨_, _, _, hv, hh⟩ := handled_ok.mp h
      obtain ⟨rfl, ⟨c, hc, hcpos⟩, r, hr, hrpos⟩ := MsgMintZYTD.validateBasic_ok hv
      obtain ⟨terms, -, hm⟩ := mintZYTD_ok hk hh
      obtain rfl : c = terms.amount := Option.some.inj (hc.symm.trans hm.amount)
      obtain rfl : r = terms.requested := Option.some.inj (hr.symm.trans hm.requested)
      exact .minted ctx msg terms (by simp [Event.signer, hm.sender, Except.toOption]) hcpos hrpos hm
  | burn ctx msg =>
      obtain ⟨_, _, _, hv, hh⟩ := handled_ok.mp h
      obtain ⟨rfl, n, hn, hpos⟩ := MsgBurnZYTD.validateBasic_ok hv
      exact (burnZYTD_fails ha hn hpos _ hh).elim
  | liquidate ctx msg =>
      obtain ⟨_, _, _, -, hh⟩ := handled_ok.mp h
      exact (liquidate_fails ctx msg _ _ _ hh).elim
  | register msg =>
      obtain ⟨_, _, _, hv, hh⟩ := handled_ok.mp h
      obtain rfl := MsgRegisterZYTDKey.validateBasic_ok hv
      exact .quiet (by rw [registerZYTDKey_ok hh])

end Steps

/-- The line of a stored position, empty without one. -/
def lineOf : Option CollateralPosition → Line
  | none => ⟨0, 0⟩
  | some pos => ⟨pos.amount.val, pos.mintedZYTD.val⟩

/-- The abstract book a state stands for. -/
def bookOf (A : App) (s : State) : Book (AccAddress × String) := fun k =>
  lineOf (s.positions.get (positionKey A k.1 k.2))

/-- The sum of all mint records. -/
def recordTotal (s : State) : ℤ := Store.total (fun r => r.minted.val) s.records

/-- The step from `s` to `t` is the abstract operation `op`, and the other
ledgers moved by the debt it draws. -/
structure Refines (A : App) (op : Op (AccAddress × String)) (s t : State) : Prop where
  keyed : Keyed A t
  allowed : op.Allowed (bookOf A s)
  book : bookOf A t = op.apply (bookOf A s)
  records : ∀ owner d, recordedDebt A t owner d = recordedDebt A s owner d + op.drawnAt (owner, d)
  total : recordTotal t = recordTotal s + op.drawn
  counter : (totalSupplyOf t).val = (totalSupplyOf s).val + op.drawn
  issued : (t.supply zytdDenom).val = (s.supply zytdDenom).val + op.drawn

section Refinement
variable {A : App} {s t : State} {ctx : Ctx A} {owner : AccAddress} {d : String}

theorem positionDebt_eq (owner : AccAddress) (d : String) :
    positionDebt A s owner d = (bookOf A s (owner, d)).debt := by
  unfold positionDebt bookOf lineOf
  cases s.positions.get (positionKey A owner d) <;> rfl

theorem bookOf_found {pos : CollateralPosition}
    (h : s.positions.get (positionKey A owner d) = some pos) :
    bookOf A s (owner, d) = ⟨pos.amount.val, pos.mintedZYTD.val⟩ := by
  simp [bookOf, h, lineOf]

theorem bookOf_put {entry : Option CollateralPosition}
    (h : t.positions = s.positions.put (positionKey A owner d) entry) (k : AccAddress × String) :
    bookOf A t k = if k = (owner, d) then lineOf entry else bookOf A s k := by
  unfold bookOf
  rw [h, Store.get_put]
  by_cases hk : k = (owner, d)
  · simp [hk]
  · have hkey : positionKey A k.1 k.2 ≠ positionKey A owner d := fun he =>
      hk (Prod.ext (positionKey_inj he).1 (positionKey_inj he).2)
    simp [hk, hkey]

theorem bookOf_positionOr (ctx : Ctx A) (s : State) (owner : AccAddress) (d : String) :
    bookOf A s (owner, d) = lineOf (some (positionOr ctx s owner d)) := by
  unfold bookOf positionOr
  cases s.positions.get (positionKey A owner d) <;> rfl

theorem recordedDebt_set {record : MintRecord}
    (h : t.records = s.records.set (mintRecordKey A owner d) record) (a : AccAddress) (e : String) :
    recordedDebt A t a e =
      if (a, e) = (owner, d) then record.minted.val else recordedDebt A s a e := by
  unfold recordedDebt
  rw [h, Store.get_set]
  by_cases hk : (a, e) = (owner, d)
  · obtain ⟨rfl, rfl⟩ := Prod.mk.inj hk
    simp
  · have hkey : mintRecordKey A a e ≠ mintRecordKey A owner d := fun he =>
      hk (Prod.ext (mintRecordKey_inj he).1 (mintRecordKey_inj he).2)
    simp [hk, hkey]

/-- A step that rewrites positions only draws no debt. -/
theorem refines_of_frame {op : Op (AccAddress × String)} (hk : Keyed A t)
    (hallowed : op.Allowed (bookOf A s)) (hbook : bookOf A t = op.apply (bookOf A s))
    (hdrawn : ∀ k, op.drawnAt k = 0) (hzero : op.drawn = 0) (hr : t.records = s.records)
    (hc : t.totalSupply = s.totalSupply) (hs : t.supply = s.supply) : Refines A op s t := by
  refine ⟨hk, hallowed, hbook, ?_, ?_, ?_, ?_⟩
  · intro a e
    simp [recordedDebt, hr, hdrawn]
  · simp [recordTotal, hr, hzero]
  · simp [totalSupplyOf, hc, hzero]
  · simp [hs, hzero]

/-- The book follows an operation when the one line it is about does. -/
theorem bookOf_apply {op : Op (AccAddress × String)} {entry : Option CollateralPosition}
    (hop : op.key = some (owner, d))
    (hput : t.positions = s.positions.put (positionKey A owner d) entry)
    (hline : lineOf entry = op.apply (bookOf A s) (owner, d)) :
    bookOf A t = op.apply (bookOf A s) := by
  funext k
  rw [bookOf_put hput]
  split_ifs with hk
  · rw [hk, hline]
  · rw [Op.apply_other]
    rw [hop]
    exact fun h => hk (Option.some.inj h).symm

theorem Deposited.refines {n : ℤ} (hk : Keyed A s) (hn : 0 < n)
    (h : Deposited ctx s t owner d n) : Refines A (.deposit (owner, d) n) s t := by
  obtain ⟨v, hv, hpos⟩ := h.position
  have hput : t.positions = s.positions.put (positionKey A owner d)
      (some { positionOr ctx s owner d with amount := v }) := hpos
  refine refines_of_frame ?_ hn ?_ (fun _ => rfl) rfl (by rw [h.frame]) (by rw [h.frame])
    (by rw [h.frame])
  · exact hk.put _ (by rintro pos ⟨⟩; exact hk.positionOr ctx _ _) hput
  · refine bookOf_apply rfl hput ?_
    simp [Op.apply, Op.lockedAt, Op.drawnAt, bookOf_positionOr ctx, lineOf, hv]

theorem Withdrawn.refines {n : ℤ} {pos : CollateralPosition} (hk : Keyed A s)
    (hb : Secured (bookOf A s)) (hfound : s.positions.get (positionKey A owner d) = some pos)
    (hfree : pos.mintedZYTD.val ≤ 0) (hn : 0 < n) (h : Withdrawn A s t owner d n pos) :
    Refines A (.withdraw (owner, d) n) s t := by
  obtain ⟨v, hv, hpos⟩ := h.position
  have hline := bookOf_found hfound
  have hdebt : pos.mintedZYTD.val = 0 := by
    have hnonneg := hb.debt_nonneg (owner, d)
    rw [hline] at hnonneg
    exact le_antisymm hfree hnonneg
  have hput : t.positions = s.positions.put (positionKey A owner d)
      (if v.val = 0 then none else some { pos with amount := v }) := by
    rw [hpos]
    split_ifs <;> rfl
  refine refines_of_frame ?_ ?_ ?_ (fun _ => rfl) rfl (by rw [h.frame]) (by rw [h.frame])
    (by rw [h.frame])
  · refine hk.put _ ?_ hput
    intro pos' he
    split_ifs at he
    obtain rfl := Option.some.inj he
    obtain ⟨howner, hdenom⟩ := hk.at hfound
    exact ⟨howner, hdenom⟩
  · exact ⟨by rw [hline, hdebt], hn, by rw [hline]; exact h.le_amount⟩
  · refine bookOf_apply rfl hput ?_
    simp only [if_true, Op.apply, Op.lockedAt, Op.drawnAt, hline]
    split_ifs with hz
    · simp only [lineOf, Line.mk.injEq]
      omega
    · simp only [lineOf, Line.mk.injEq]
      omega

theorem Minted.refines {req : MsgMintZYTD} {terms : MintTerms} (hk : Keyed A s)
    (hdeposit : 0 < terms.amount.val) (hdebt : 0 < terms.requested.val)
    (h : Minted ctx req s t terms) :
    Refines A (.borrow (terms.sender, req.ibcDenom) terms.amount.val terms.requested.val) s t := by
  obtain ⟨v, w, hv, hw, -, hpos⟩ := h.position
  obtain ⟨record, hminted, hrecords⟩ := h.record
  have hput : t.positions = s.positions.put (positionKey A terms.sender req.ibcDenom)
      (some { positionOr ctx s terms.sender req.ibcDenom with amount := v, mintedZYTD := w }) := hpos
  refine ⟨?_, ⟨hdeposit, hdebt⟩, ?_, ?_, ?_, h.totalSupply, h.supply⟩
  · exact hk.put _ (by rintro pos ⟨⟩; exact hk.positionOr ctx _ _) hput
  · refine bookOf_apply rfl hput ?_
    simp [Op.apply, Op.lockedAt, Op.drawnAt, bookOf_positionOr ctx, lineOf, hv, hw]
  · intro a e
    rw [recordedDebt_set hrecords]
    simp only [Op.drawnAt]
    split_ifs with hkey
    · obtain ⟨rfl, rfl⟩ := Prod.mk.inj hkey
      exact hminted
    · exact (add_zero _).symm
  · simp only [recordTotal, hrecords, Store.total_set, Op.drawn, hminted]
    omega

/-- Every effect is an operation on the abstract book. -/
theorem Effect.refines {e : Event A} (hk : Keyed A s) (hb : Secured (bookOf A s))
    (h : Effect e s t) : ∃ op, Refines A op s t := by
  cases h with
  | quiet frame =>
      have hpos : t.positions = s.positions := by rw [frame]
      refine ⟨.idle, refines_of_frame ?_ trivial ?_ (fun _ => rfl) rfl (by rw [frame])
        (by rw [frame]) (by rw [frame])⟩
      · intro k pos hp
        exact hk k pos (hpos ▸ hp)
      · funext k
        simp [bookOf, hpos, Op.apply, Op.lockedAt, Op.drawnAt]
  | deposited ctx owner d n signed positive done =>
      exact ⟨_, Deposited.refines hk positive done⟩
  | withdrawn owner d n pos signed positive found debtFree done =>
      exact ⟨_, Withdrawn.refines hk hb found debtFree positive done⟩
  | minted ctx req terms signed deposit debt done =>
      exact ⟨_, Minted.refines hk deposit debt done⟩

end Refinement

/-- The four ledgers of a state, counted from the state `s₀` a run began in. -/
structure Ledgers (A : App) (s₀ s : State) : Prop where
  keyed : Keyed A s
  secured : Secured (bookOf A s)
  agree : Agree A s
  summed : recordTotal s = (totalSupplyOf s).val
  issued : (totalSupplyOf s).val = (s.supply zytdDenom).val - (s₀.supply zytdDenom).val

section Runs
variable {A : App} {s₀ s t : State}

theorem Refines.ledgers {op : Op (AccAddress × String)} (hs : Ledgers A s₀ s)
    (h : Refines A op s t) : Ledgers A s₀ t where
  keyed := h.keyed
  secured := by
    rw [h.book]
    exact hs.secured.apply h.allowed
  agree owner d := by
    rw [h.records, positionDebt_eq, h.book, hs.agree owner d, positionDebt_eq]
    rfl
  summed := by rw [h.total, h.counter, hs.summed]
  issued := by
    have hissued := hs.issued
    rw [h.counter, h.issued]
    omega

/-- A rolled back event changes nothing; any other does what the list says. -/
theorem step_effect (hs : Ledgers A s₀ s) (e : Event A) : Effect e s (step s e) := by
  rcases commit_cases e.exec s with ⟨u, h⟩ | ⟨-, h⟩
  · exact exec_effect hs.keyed hs.agree h
  · rw [step, h]
    exact .quiet rfl

theorem step_refines (hs : Ledgers A s₀ s) (e : Event A) : ∃ op, Refines A op s (step s e) :=
  (step_effect hs e).refines hs.keyed hs.secured

theorem step_ledgers (hs : Ledgers A s₀ s) (e : Event A) : Ledgers A s₀ (step s e) := by
  obtain ⟨op, h⟩ := step_refines hs e
  exact h.ledgers hs

theorem genesis_ledgers (A : App) (b : BankGenesis) : Ledgers A (genesis A b) (genesis A b) := by
  rw [genesis_eq]
  refine ⟨?_, ⟨?_, ?_, ?_⟩, ?_, rfl, ?_⟩
  · intro k pos h
    simp [BankGenesis.blank] at h
  · intro k
    exact le_refl 0
  · intro k
    exact le_refl 0
  · intro k h
    exact absurd h (lt_irrefl 0)
  · intro owner d
    rfl
  · exact (sub_self _).symm

theorem run_ledgers (A : App) (b : BankGenesis) (events : List (Event A)) :
    Ledgers A (genesis A b) (run step (genesis A b) events) :=
  run_invariant (Ledgers A (genesis A b)) (fun _ => True) (fun _ e _ hs => step_ledgers hs e) events
    _ (genesis_ledgers A b) fun _ _ => trivial

/-- Nothing rewrites the whitelist. -/
theorem Effect.assets {e : Event A} (h : Effect e s t) : t.assets = s.assets := by
  cases h with
  | quiet frame =>
      have h := congrArg State.assets frame
      exact h
  | deposited ctx owner d n signed positive done =>
      have h := congrArg State.assets done.frame
      exact h
  | withdrawn owner d n pos signed positive found debtFree done =>
      have h := congrArg State.assets done.frame
      exact h
  | minted ctx req terms signed deposit debt done => exact done.rest.1

theorem run_assets (A : App) (b : BankGenesis) (events : List (Event A)) :
    (run step (genesis A b) events).assets = defaultAssetStore := by
  induction events using List.reverseRecOn with
  | nil =>
      rw [run, List.foldl_nil, genesis_eq]
  | append_singleton events e ih =>
      rw [run_snoc, (step_effect (run_ledgers A b events) e).assets, ih]

/-- After any run from default genesis, by any accounts and with any prices, the
record and the position of every owner show the same debt, the records add up to
the supply counter, the counter equals what the bank issued since genesis, and
neither a burn nor a liquidation takes the counter below zero. -/
theorem debt_ledgers_agree (A : App) (b : BankGenesis) (events : List (Event A)) :
    (∀ owner d, recordedDebt A (run step (genesis A b) events) owner d =
      positionDebt A (run step (genesis A b) events) owner d) ∧
    recordTotal (run step (genesis A b) events) =
      (totalSupplyOf (run step (genesis A b) events)).val ∧
    (totalSupplyOf (run step (genesis A b) events)).val =
      ((run step (genesis A b) events).supply zytdDenom).val -
        ((genesis A b).supply zytdDenom).val ∧
    (∀ (ctx : Ctx A) (msg : MsgBurnZYTD) m u t returned newSupply,
      msg.validateBasic A (run step (genesis A b) events) = .ok u m →
      burnBeforeSupply ctx msg m = .ok (returned, newSupply) t → 0 ≤ newSupply.val) ∧
    (∀ (ctx : Ctx A) (msg : MsgLiquidate) t seized newSupply,
      liquidateBeforeSupply ctx msg (run step (genesis A b) events) = .ok (seized, newSupply) t →
      0 ≤ newSupply.val) := by
  have hs := run_ledgers A b events
  refine ⟨hs.agree, hs.summed, hs.issued, ?_, ?_⟩
  · intro ctx msg m u t returned newSupply hv h
    obtain ⟨rfl, n, hn, hpos⟩ := MsgBurnZYTD.validateBasic_ok hv
    exact (burnBeforeSupply_fails hs.agree hn hpos _ h).elim
  · intro ctx msg t seized newSupply h
    exact (liquidateBeforeSupply_fails ctx msg _ t _ h).elim

end Runs

end Zytherion.DebtLedgers
