import Zytherion.ChainState
import Zytherion.Ledger
import Mathlib.Data.List.Sort

/-!
# Coins and the bank keeper

Sets of coins are lists; a valid one has positive amounts, valid denominations
and is sorted by denomination without repetition. A transfer takes the coins
from what the payer may spend and then credits the payee; minting credits a
module account and raises the supply, burning does the opposite. Each has one
law that says what it did to the balances, as a movement of a ledger
(`Sent`, `Issued`), and one that says when it returns.

Callers only ever send the coins of one denomination, built by `coinsOf`.
-/
namespace Zytherion.Bank

open GoCall KeyedStore SdkMath Application ChainState Ledger

structure Coin where
  denom : String
  amount : SdkInt
deriving DecidableEq

/-- The denomination pattern `[a-zA-Z][a-zA-Z0-9/:._-]{2,127}`. -/
def validateDenom (denom : String) : Bool :=
  match denom.toList with
  | [] => false
  | c :: rest => c.isAlpha && decide (2 ≤ rest.length) && decide (rest.length ≤ 127) &&
      rest.all fun c => c.isAlphanum || c ∈ ['/', ':', '.', '_', '-']

def Coin.text (c : Coin) : String := toString c.amount ++ c.denom

def Coin.isValid (c : Coin) : Bool := validateDenom c.denom && !c.amount.isNegative

def newCoin (denom : String) (amount : SdkInt) : Checked Coin := do
  panicUnless (validateDenom denom) ("invalid denom: " ++ denom)
  panicUnless (!amount.isNegative) ("negative coin amount: " ++ toString amount)
  return ⟨denom, amount⟩

/-- Each further denomination is larger than the one before it. -/
def ascending : String → List Coin → Bool
  | _, [] => true
  | low, c :: rest => validateDenom c.denom && decide (low < c.denom) && c.amount.isPositive &&
      ascending c.denom rest

def coinsValid : List Coin → Bool
  | [] => true
  | c :: rest => validateDenom c.denom && c.amount.isPositive && ascending c.denom rest

def coinsText (coins : List Coin) : String := ",".intercalate (coins.map Coin.text)

def newCoins (coins : List Coin) : Checked (List Coin) := do
  let sorted := (coins.filter fun c => !c.amount.isZero).insertionSort fun a b => a.denom ≤ b.denom
  panicUnless (coinsValid sorted) ("invalid coin set " ++ coinsText sorted)
  return sorted

/-- The set with one denomination, empty for amount zero. -/
def coinsOf (denom : String) (amount : SdkInt) : List Coin :=
  if amount.isZero then [] else [⟨denom, amount⟩]

/-- `sdk.NewCoins(sdk.NewCoin(denom, amount))`, the shape every caller builds. -/
def newCoinsOf (denom : String) (amount : SdkInt) : Checked (List Coin) := do
  let coin ← newCoin denom amount
  newCoins [coin]

section Keeper
variable {A : App} (ctx : Ctx A)

def setBalance (addr : AccAddress) (balance : Coin) : Exec Unit := do
  require balance.isValid (.wrap balance.text errInvalidCoins)
  modifyStore fun s => s.putBalance addr balance.denom balance.amount

def subUnlockedCoin (addr : AccAddress) (coin : Coin) : Exec Unit := do
  let balance ← gets fun s => s.balances addr coin.denom
  let locked := ctx.lockedCoins addr coin.denom
  require (!locked.gt balance)
    (.wrap ("locked amount exceeds account balance funds: " ++ Coin.text ⟨coin.denom, locked⟩ ++
      " > " ++ Coin.text ⟨coin.denom, balance⟩) errInsufficientFunds)
  let spendable ← balance.sub locked
  require (!coin.amount.gt spendable)
    (.wrap ("spendable balance " ++ coinsText (coinsOf coin.denom spendable) ++
      " is smaller than " ++ coin.text) errInsufficientFunds)
  let newBalance ← balance.sub coin.amount
  setBalance addr ⟨coin.denom, newBalance⟩

def subUnlockedCoins (addr : AccAddress) (amt : List Coin) : Exec Unit := do
  require (coinsValid amt) (.wrap (coinsText amt) errInvalidCoins)
  amt.forM (subUnlockedCoin ctx addr)

def addCoin (addr : AccAddress) (coin : Coin) : Exec Unit := do
  let balance ← gets fun s => s.balances addr coin.denom
  let newBalance ← balance.add coin.amount
  setBalance addr ⟨coin.denom, newBalance⟩

def addCoins (addr : AccAddress) (amt : List Coin) : Exec Unit := do
  require (coinsValid amt) (.wrap (coinsText amt) errInvalidCoins)
  amt.forM (addCoin addr)

def sendCoins (fromAddr toAddr : AccAddress) (amt : List Coin) : Exec Unit := do
  subUnlockedCoins ctx fromAddr amt
  addCoins toAddr amt

def sendCoinsFromModuleToAccount (senderModule : String) (recipientAddr : AccAddress)
    (amt : List Coin) : Exec Unit := do
  let senderAddr ← orPanic (A.getModuleAddress senderModule)
    ("module account " ++ senderModule ++ " does not exist")
  require (!A.blockedAddr recipientAddr)
    (.wrap (A.text recipientAddr ++ " is not allowed to receive funds") errUnauthorized)
  sendCoins ctx senderAddr recipientAddr amt

def sendCoinsFromAccountToModule (senderAddr : AccAddress) (recipientModule : String)
    (amt : List Coin) : Exec Unit := do
  let recipient ← orPanic (A.getModuleAddress recipientModule)
    ("module account " ++ recipientModule ++ " does not exist")
  sendCoins ctx senderAddr recipient amt

def addSupply (coin : Coin) : Exec Unit := do
  let supply ← gets fun s => s.supply coin.denom
  let newSupply ← supply.add coin.amount
  modifyStore fun s => s.putSupply coin.denom newSupply

def subSupply (coin : Coin) : Exec Unit := do
  let supply ← gets fun s => s.supply coin.denom
  let newSupply ← supply.sub coin.amount
  panicUnless (!newSupply.isNegative) "negative coin amount"
  modifyStore fun s => s.putSupply coin.denom newSupply

variable (A) in
def mintCoins (moduleName : String) (amounts : List Coin) : Exec Unit := do
  let acc ← orPanic (A.getModuleAddress moduleName)
    ("module account " ++ moduleName ++ " does not exist")
  panicUnless (App.hasPermission moduleName .minter)
    ("module account " ++ moduleName ++ " does not have permissions to mint tokens")
  addCoins acc amounts
  amounts.forM addSupply

def burnCoins (moduleName : String) (amounts : List Coin) : Exec Unit := do
  let acc ← orPanic (A.getModuleAddress moduleName)
    ("module account " ++ moduleName ++ " does not exist")
  panicUnless (App.hasPermission moduleName .burner)
    ("module account " ++ moduleName ++ " does not have permissions to burn tokens")
  subUnlockedCoins ctx acc amounts
  amounts.forM subSupply

end Keeper

theorem newCoinsOf_ok {d : String} {n : SdkInt} {coins : List Coin} :
    newCoinsOf d n = .ok coins ↔
      validateDenom d = true ∧ 0 ≤ n.val ∧ coins = coinsOf d n := by
  have hsort : ∀ l : List Coin, l.length ≤ 1 →
      l.insertionSort (fun a b => a.denom ≤ b.denom) = l := by
    intro l hl
    match l, hl with
    | [], _ => rfl
    | [_], _ => rfl
  have hfilter : [(⟨d, n⟩ : Coin)].filter (fun c => !c.amount.isZero) = coinsOf d n := by
    unfold coinsOf
    cases hz : n.isZero <;> simp [hz]
  have hlen : (coinsOf d n).length ≤ 1 := by
    unfold coinsOf
    split_ifs <;> simp
  have hnew : newCoins [⟨d, n⟩] = .ok coins ↔
      coinsValid (coinsOf d n) = true ∧ coins = coinsOf d n := by
    simp only [newCoins, hfilter, hsort _ hlen, checked_bind_ok, panicUnless_ok, exists_const,
      pure, Except.pure, Except.ok.injEq, eq_comm (a := coins)]
  have hvalid : validateDenom d = true → 0 ≤ n.val → coinsValid (coinsOf d n) = true := by
    intro hd hn
    unfold coinsOf
    split_ifs with hz
    · rfl
    · have hpos : 0 < n.val := by
        rw [SdkInt.isZero_iff] at hz
        omega
      simp [coinsValid, ascending, hd, hpos]
  simp only [newCoinsOf, newCoin, checked_bind_ok, panicUnless_ok, exists_const, pure,
    Except.pure, Except.ok.injEq]
  constructor
  · rintro ⟨c, ⟨hd, hn, rfl⟩, hc⟩
    exact ⟨hd, by simpa using hn, (hnew.mp hc).2⟩
  · rintro ⟨hd, hn, hc⟩
    exact ⟨_, ⟨hd, by simpa using hn, rfl⟩, hnew.mpr ⟨hvalid hd hn, hc⟩⟩

/-- A bank the chain can start from: in every denomination the balances are not
negative and backed by the supply. -/
structure BankGenesis where
  balances : AccAddress → String → SdkInt
  supply : String → SdkInt
  backed : ∀ d, Backed (fun a => (balances a d).val) (supply d).val

/-- The state before any module but the bank has written. -/
def BankGenesis.blank (b : BankGenesis) : State where
  balances := b.balances
  supply := b.supply
  assets := ∅
  positions := ∅
  locked := ∅
  twaps := ∅
  params := none
  records := ∅
  totalSupply := none
  pqcKeys := ∅

/-- In every denomination the balances are backed by the supply. -/
def Funded (s : State) : Prop := ∀ d, Backed (s.held d) (s.supply d).val

theorem BankGenesis.funded (b : BankGenesis) : Funded b.blank := b.backed

/-- What an account may spend of a denomination. -/
def spendable {A : App} (ctx : Ctx A) (s : State) (a : AccAddress) (d : String) : ℤ :=
  s.held d a - (ctx.lockedCoins a d).val

section Single
variable {A : App} {ctx : Ctx A} {s t : State} {a b : AccAddress} {d : String} {n : SdkInt}

theorem setBalance_ok {c : Coin} {u : Unit} :
    setBalance a c s = .ok u t ↔
      validateDenom c.denom = true ∧ 0 ≤ c.amount.val ∧ s.putBalance a c.denom c.amount = t := by
  simp [setBalance, Coin.isValid, and_assoc]

theorem subUnlockedCoin_ok (hd : validateDenom d = true) (hn : 0 < n.val) {u : Unit} :
    subUnlockedCoin ctx a ⟨d, n⟩ s = .ok u t ↔
      n.val ≤ spendable ctx s a d ∧
        ∃ v : SdkInt, v.val = s.held d a - n.val ∧ t = s.putBalance a d v := by
  have hlock := ctx.lockedCoins_nonneg a d
  have hwidth := (s.balances a d).width
  simp only [subUnlockedCoin, bind_ok, gets_ok, require_ok, liftM_ok, setBalance_ok,
    SdkInt.sub_ok, Bool.not_eq_true', SdkInt.gt_eq_false, spendable, State.held]
  constructor
  · rintro ⟨_, _, ⟨rfl, rfl⟩, _, _, ⟨hl, rfl⟩, w, _, ⟨hw, rfl⟩, _, _, ⟨hs, rfl⟩, v, _, ⟨hv, rfl⟩,
      -, -, rfl⟩
    exact ⟨by omega, v, hv, rfl⟩
  · rintro ⟨hs, v, hv, rfl⟩
    have hbal : ((s.balances a d).val - (ctx.lockedCoins a d).val).natAbs < intBound := by omega
    exact ⟨_, _, ⟨rfl, rfl⟩, (), _, ⟨by omega, rfl⟩, ⟨_, hbal⟩, _, ⟨rfl, rfl⟩, (), _,
      ⟨by simpa using hs, rfl⟩, v, _, ⟨hv, rfl⟩, hd, by omega, rfl⟩

theorem addCoin_ok {u : Unit} :
    addCoin a ⟨d, n⟩ s = .ok u t ↔ validateDenom d = true ∧ ∃ v : SdkInt,
      v.val = s.held d a + n.val ∧ 0 ≤ v.val ∧ t = s.putBalance a d v := by
  simp only [addCoin, bind_ok, gets_ok, liftM_ok, SdkInt.add_ok, setBalance_ok, State.held]
  constructor
  · rintro ⟨_, _, ⟨rfl, rfl⟩, v, _, ⟨hv, rfl⟩, hd, hpos, rfl⟩
    exact ⟨hd, v, hv, hpos, rfl⟩
  · rintro ⟨hd, v, hv, hpos, rfl⟩
    exact ⟨_, _, ⟨rfl, rfl⟩, v, _, ⟨hv, rfl⟩, hd, hpos, rfl⟩

theorem subUnlockedCoins_one (hd : validateDenom d = true) (hn : 0 < n.val) {u : Unit} :
    subUnlockedCoins ctx a [⟨d, n⟩] s = .ok u t ↔
      n.val ≤ spendable ctx s a d ∧
        ∃ v : SdkInt, v.val = s.held d a - n.val ∧ t = s.putBalance a d v := by
  simp [subUnlockedCoins, coinsValid, ascending, hd, hn, subUnlockedCoin_ok hd hn]

theorem addCoins_one (hd : validateDenom d = true) (hn : 0 < n.val) {u : Unit} :
    addCoins a [⟨d, n⟩] s = .ok u t ↔
      ∃ v : SdkInt, v.val = s.held d a + n.val ∧ 0 ≤ v.val ∧ t = s.putBalance a d v := by
  simp [addCoins, coinsValid, ascending, hd, hn, addCoin_ok]

theorem addSupply_ok {u : Unit} :
    addSupply ⟨d, n⟩ s = .ok u t ↔
      ∃ v : SdkInt, v.val = (s.supply d).val + n.val ∧ t = s.putSupply d v := by
  simp only [addSupply, bind_ok, gets_ok, liftM_ok, SdkInt.add_ok, modifyStore_ok]
  constructor
  · rintro ⟨_, _, ⟨rfl, rfl⟩, v, _, ⟨hv, rfl⟩, rfl⟩
    exact ⟨v, hv, rfl⟩
  · rintro ⟨v, hv, rfl⟩
    exact ⟨_, _, ⟨rfl, rfl⟩, v, _, ⟨hv, rfl⟩, rfl⟩

theorem subSupply_ok {u : Unit} :
    subSupply ⟨d, n⟩ s = .ok u t ↔
      ∃ v : SdkInt, v.val = (s.supply d).val - n.val ∧ 0 ≤ v.val ∧ t = s.putSupply d v := by
  simp only [subSupply, bind_ok, gets_ok, liftM_ok, SdkInt.sub_ok, panicUnless_ok,
    Bool.not_eq_true', SdkInt.isNegative_eq_false, modifyStore_ok]
  constructor
  · rintro ⟨_, _, ⟨rfl, rfl⟩, v, _, ⟨hv, rfl⟩, _, _, ⟨hpos, rfl⟩, rfl⟩
    exact ⟨v, hv, hpos, rfl⟩
  · rintro ⟨v, hv, hpos, rfl⟩
    exact ⟨_, _, ⟨rfl, rfl⟩, v, _, ⟨hv, rfl⟩, (), _, ⟨hpos, rfl⟩, rfl⟩

end Single

/-- Among the balances, `n` of `d` went from `a` to `b`, which `a` could afford. -/
structure Paid (s t : State) (a b : AccAddress) (d : String) (n : ℤ) : Prop where
  covered : n = 0 ∨ n ≤ s.held d a
  moved : t.held d = move (s.held d) a b n
  others : ∀ e, e ≠ d → t.held e = s.held e

/-- A payment that changed nothing but balances. -/
structure Sent (s t : State) (a b : AccAddress) (d : String) (n : ℤ) : Prop
    extends Paid s t a b d n where
  frame : t = { s with balances := t.balances }

theorem Paid.congr {s t m : State} {a b : AccAddress} {d : String} {n : ℤ}
    (h : Paid s m a b d n) (hb : t.balances = m.balances) : Paid s t a b d n := by
  have hheld : t.held = m.held := by
    funext e x
    simp only [State.held, hb]
  exact ⟨h.covered, by rw [hheld, h.moved], fun e he => by rw [hheld, h.others e he]⟩

theorem Paid.held_eq {s t : State} {a b : AccAddress} {d : String} {n : ℤ}
    (h : Paid s t a b d n) (e : String) (x : AccAddress) :
    t.held e x = s.held e x +
      if e = d then (if x = b then n else 0) - (if x = a then n else 0) else 0 := by
  by_cases he : e = d
  · subst he
    rw [h.moved, move, if_pos rfl]
    omega
  · rw [h.others e he, if_neg he, add_zero]

/-- `n` new units of `d` appeared at `a`, and nothing else changed. -/
structure Issued (s t : State) (a : AccAddress) (d : String) (n : ℤ) : Prop where
  frame : t = { s with balances := t.balances, supply := t.supply }
  issued : t.held d = issue (s.held d) a n
  others : ∀ e, e ≠ d → t.held e = s.held e
  supply : (t.supply d).val = (s.supply d).val + n
  otherSupply : ∀ e, e ≠ d → t.supply e = s.supply e

theorem Issued.held_eq {s t : State} {a : AccAddress} {d : String} {n : ℤ}
    (h : Issued s t a d n) (e : String) (x : AccAddress) :
    t.held e x = s.held e x + if e = d then (if x = a then n else 0) else 0 := by
  by_cases he : e = d
  · subst he
    rw [h.issued, issue, if_pos rfl]
  · rw [h.others e he, if_neg he, add_zero]

theorem Funded.congr {s t : State} (hs : Funded s) (hb : t.balances = s.balances)
    (hp : t.supply = s.supply) : Funded t := by
  intro d
  have hheld : t.held d = s.held d := by
    funext x
    simp only [State.held, hb]
  rw [hheld, hp]
  exact hs d

section Transfers
variable {A : App} {ctx : Ctx A} {s t : State} {a b : AccAddress} {d : String} {n : SdkInt}
variable {u : Unit}

theorem Sent.refl (s : State) (a b : AccAddress) (d : String) : Sent s s a b d 0 :=
  ⟨⟨.inl rfl, (move_zero _ a b).symm, fun _ _ => rfl⟩, rfl⟩

theorem sendCoins_sent (hd : validateDenom d = true) (hn : 0 ≤ n.val)
    (h : sendCoins ctx a b (coinsOf d n) s = .ok u t) : Sent s t a b d n.val := by
  rcases hn.eq_or_lt with hz | hpos
  · have hnil : coinsOf d n = [] := by simp [coinsOf, hz.symm]
    have hst : s = t := by
      simpa [sendCoins, hnil, subUnlockedCoins, addCoins, coinsValid] using h
    rw [← hz, ← hst]
    exact Sent.refl s a b d
  · have hone : coinsOf d n = [⟨d, n⟩] := by simp [coinsOf, hpos.ne']
    rw [hone, sendCoins, bind_ok] at h
    obtain ⟨_, m, hsub, hadd⟩ := h
    obtain ⟨hs, v, hv, rfl⟩ := (subUnlockedCoins_one hd hpos).mp hsub
    obtain ⟨w, hw, -, rfl⟩ := (addCoins_one hd hpos).mp hadd
    have hlock := ctx.lockedCoins_nonneg a d
    refine ⟨⟨.inr (by unfold spendable at hs; omega), ?_, ?_⟩, rfl⟩
    · funext x
      rw [State.held_putBalance] at hw
      simp only [State.held_putBalance, move]
      split_ifs at hw ⊢ <;> subst_vars <;> first | contradiction | omega
    · intro e he
      rw [State.held_putBalance_ne _ _ _ he, State.held_putBalance_ne _ _ _ he]

/-- A transfer out of spendable funds to an account with room for them returns. -/
theorem sendCoins_returns (hd : validateDenom d = true) (hn : 0 < n.val)
    (ha : n.val ≤ spendable ctx s a d) (hab : a ≠ b) (hb : 0 ≤ s.held d b)
    (hroom : s.held d b + n.val < intBound) :
    ∃ t, sendCoins ctx a b (coinsOf d n) s = .ok () t := by
  have hlock := ctx.lockedCoins_nonneg a d
  have hwidth := (s.balances a d).width
  have hone : coinsOf d n = [⟨d, n⟩] := by simp [coinsOf, hn.ne']
  have hv : (s.held d a - n.val).natAbs < intBound := by
    unfold spendable at ha
    unfold State.held at ha ⊢
    omega
  have hw : (s.held d b + n.val).natAbs < intBound := by omega
  refine ⟨(s.putBalance a d ⟨_, hv⟩).putBalance b d ⟨_, hw⟩, ?_⟩
  rw [hone, sendCoins, bind_ok]
  refine ⟨(), _, (subUnlockedCoins_one hd hn).mpr ⟨ha, ⟨_, hv⟩, rfl, rfl⟩, ?_⟩
  refine (addCoins_one hd hn).mpr ⟨⟨_, hw⟩, ?_, ?_, rfl⟩
  · rw [State.held_putBalance, if_neg hab.symm]
  · show 0 ≤ s.held d b + n.val
    omega

theorem subUnlockedCoins_err {e : Err} (h : subUnlockedCoins ctx a [⟨d, n⟩] s = .err e t) : s = t := by
  simp only [subUnlockedCoins, subUnlockedCoin, setBalance, bind_err, require_err, require_ok,
    forM_singleton_err, gets_err, gets_ok, liftM_err, liftM_ok, modifyStore_err, false_or] at h
  grind

theorem addCoins_err {e : Err} (h : addCoins a [⟨d, n⟩] s = .err e t) : s = t := by
  simp only [addCoins, addCoin, setBalance, bind_err, require_err, require_ok, forM_singleton_err,
    gets_err, gets_ok, liftM_err, liftM_ok, modifyStore_err, false_or] at h
  grind

/-- A failed transfer may have taken from the payer and touches nobody else. -/
theorem sendCoins_err (hd : validateDenom d = true) (hn : 0 < n.val) {e : Err}
    (h : sendCoins ctx a b (coinsOf d n) s = .err e t) (f : String) {x : AccAddress} (hx : x ≠ a) :
    t.held f x = s.held f x := by
  have hone : coinsOf d n = [⟨d, n⟩] := by simp [coinsOf, hn.ne']
  rw [hone, sendCoins, bind_err] at h
  rcases h with h | ⟨_, m, hsub, hadd⟩
  · rw [subUnlockedCoins_err h]
  · obtain ⟨-, v, -, rfl⟩ := (subUnlockedCoins_one hd hn).mp hsub
    rw [← addCoins_err hadd]
    simp [State.held, State.putBalance, hx]

theorem sendCoinsFromAccountToModule_returns {name : String} (hm : A.getModuleAddress name = some b)
    (hsend : ∃ t, sendCoins ctx a b (coinsOf d n) s = .ok () t) :
    ∃ t, sendCoinsFromAccountToModule ctx a name (coinsOf d n) s = .ok () t := by
  obtain ⟨t, ht⟩ := hsend
  simp only [sendCoinsFromAccountToModule, bind_ok, liftM_ok, orPanic_ok]
  exact ⟨t, b, s, ⟨hm, rfl⟩, ht⟩

theorem sendCoinsFromModuleToAccount_returns {name : String} (hm : A.getModuleAddress name = some a)
    (hb : A.blockedAddr b = false) (hsend : ∃ t, sendCoins ctx a b (coinsOf d n) s = .ok () t) :
    ∃ t, sendCoinsFromModuleToAccount ctx name b (coinsOf d n) s = .ok () t := by
  obtain ⟨t, ht⟩ := hsend
  simp only [sendCoinsFromModuleToAccount, bind_ok, liftM_ok, orPanic_ok, require_ok,
    Bool.not_eq_true']
  exact ⟨t, a, s, ⟨hm, rfl⟩, (), s, ⟨hb, rfl⟩, ht⟩

theorem sendCoinsFromAccountToModule_sent {name : String} (hm : A.getModuleAddress name = some b)
    (hd : validateDenom d = true) (hn : 0 ≤ n.val)
    (h : sendCoinsFromAccountToModule ctx a name (coinsOf d n) s = .ok u t) :
    Sent s t a b d n.val := by
  simp only [sendCoinsFromAccountToModule, bind_ok, liftM_ok, orPanic_ok] at h
  obtain ⟨b', _, ⟨hm', rfl⟩, hs⟩ := h
  obtain rfl : b = b' := Option.some.inj (hm.symm.trans hm')
  exact sendCoins_sent hd hn hs

theorem sendCoinsFromModuleToAccount_sent {name : String} (hm : A.getModuleAddress name = some a)
    (hd : validateDenom d = true) (hn : 0 ≤ n.val)
    (h : sendCoinsFromModuleToAccount ctx name b (coinsOf d n) s = .ok u t) :
    A.blockedAddr b = false ∧ Sent s t a b d n.val := by
  simp only [sendCoinsFromModuleToAccount, bind_ok, liftM_ok, orPanic_ok, require_ok,
    Bool.not_eq_true'] at h
  obtain ⟨a', _, ⟨hm', rfl⟩, _, _, ⟨hb, rfl⟩, hs⟩ := h
  obtain rfl : a = a' := Option.some.inj (hm.symm.trans hm')
  exact ⟨hb, sendCoins_sent hd hn hs⟩

theorem Issued.refl (s : State) (a : AccAddress) (d : String) : Issued s s a d 0 :=
  ⟨rfl, (issue_zero _ a).symm, fun _ _ => rfl, (add_zero _).symm, fun _ _ => rfl⟩

/-- A credit or debit of `a` followed by the matching change of the supply. -/
theorem issued_put {v w : SdkInt} {m : ℤ} (hv : v.val = s.held d a + m)
    (hw : w.val = (s.supply d).val + m) :
    Issued s ((s.putBalance a d v).putSupply d w) a d m := by
  refine ⟨rfl, ?_, ?_, ?_, ?_⟩
  · funext x
    show (s.putBalance a d v).held d x = _
    rw [State.held_putBalance, issue]
    split_ifs <;> subst_vars <;> omega
  · intro e he
    exact State.held_putBalance_ne s a v he
  · simpa [State.putSupply, State.putBalance] using hw
  · intro e he
    simp [State.putSupply, State.putBalance, he]

theorem mintCoins_issued {name : String} (hm : A.getModuleAddress name = some a)
    (hd : validateDenom d = true) (hn : 0 ≤ n.val)
    (h : mintCoins A name (coinsOf d n) s = .ok u t) : Issued s t a d n.val := by
  rcases hn.eq_or_lt with hz | hpos
  · have hnil : coinsOf d n = [] := by simp [coinsOf, hz.symm]
    simp only [mintCoins, hnil, bind_ok, liftM_ok, orPanic_ok, panicUnless_ok, addCoins,
      require_ok] at h
    obtain ⟨_, _, ⟨-, rfl⟩, _, _, ⟨-, rfl⟩, _, _, ⟨_, _, ⟨-, rfl⟩, -, rfl⟩, -, rfl⟩ := h
    exact hz ▸ Issued.refl s a d
  · have hone : coinsOf d n = [⟨d, n⟩] := by simp [coinsOf, hpos.ne']
    simp only [mintCoins, hone, bind_ok, liftM_ok, orPanic_ok, panicUnless_ok, addCoins_one hd hpos,
      forM_singleton_ok, addSupply_ok] at h
    obtain ⟨a', _, ⟨hm', rfl⟩, _, _, ⟨-, rfl⟩, _, _, ⟨v, hv, -, rfl⟩, w, hw, rfl⟩ := h
    obtain rfl : a = a' := Option.some.inj (hm.symm.trans hm')
    exact issued_put hv hw

/-- Minting returns while the credited balance and the supply have room. -/
theorem mintCoins_returns {name : String} (hd : validateDenom d = true) (hn : 0 < n.val)
    (hm : A.getModuleAddress name = some a) (hperm : App.hasPermission name .minter = true)
    (ha : 0 ≤ s.held d a) (hroom : s.held d a + n.val < intBound) (hs : 0 ≤ (s.supply d).val)
    (hsupply : (s.supply d).val + n.val < intBound) :
    ∃ t, mintCoins A name (coinsOf d n) s = .ok () t := by
  have hone : coinsOf d n = [⟨d, n⟩] := by simp [coinsOf, hn.ne']
  have hv : (s.held d a + n.val).natAbs < intBound := by omega
  have hw : ((s.supply d).val + n.val).natAbs < intBound := by omega
  simp only [mintCoins, hone, bind_ok, liftM_ok, orPanic_ok, panicUnless_ok, addCoins_one hd hn,
    forM_singleton_ok, addSupply_ok]
  exact ⟨_, a, s, ⟨hm, rfl⟩, (), s, ⟨hperm, rfl⟩, (), _, ⟨⟨_, hv⟩, rfl, add_nonneg ha hn.le, rfl⟩,
    ⟨_, hw⟩, rfl, rfl⟩

theorem burnCoins_issued {name : String} (hm : A.getModuleAddress name = some a)
    (hd : validateDenom d = true) (hn : 0 ≤ n.val)
    (h : burnCoins ctx name (coinsOf d n) s = .ok u t) : Issued s t a d (-n.val) := by
  rcases hn.eq_or_lt with hz | hpos
  · have hnil : coinsOf d n = [] := by simp [coinsOf, hz.symm]
    simp only [burnCoins, hnil, bind_ok, liftM_ok, orPanic_ok, panicUnless_ok, subUnlockedCoins,
      require_ok] at h
    obtain ⟨_, _, ⟨-, rfl⟩, _, _, ⟨-, rfl⟩, _, _, ⟨_, _, ⟨-, rfl⟩, -, rfl⟩, -, rfl⟩ := h
    rw [← hz]
    exact Issued.refl s a d
  · have hone : coinsOf d n = [⟨d, n⟩] := by simp [coinsOf, hpos.ne']
    simp only [burnCoins, hone, bind_ok, liftM_ok, orPanic_ok, panicUnless_ok,
      subUnlockedCoins_one hd hpos, forM_singleton_ok, subSupply_ok] at h
    obtain ⟨a', _, ⟨hm', rfl⟩, _, _, ⟨-, rfl⟩, _, _, ⟨-, v, hv, rfl⟩, w, hw, -, rfl⟩ := h
    obtain rfl : a = a' := Option.some.inj (hm.symm.trans hm')
    exact issued_put (by omega) (by rw [hw]; exact sub_eq_add_neg _ _)

theorem Paid.funded {m : ℤ} (hs : Funded s) (hm : 0 ≤ m) (h : Paid s t a b d m)
    (hsupply : t.supply = s.supply) : Funded t := by
  intro e
  rw [hsupply]
  by_cases he : e = d
  · subst he
    rw [h.moved]
    rcases h.covered with hz | hle
    · rw [hz, move_zero]
      exact hs e
    · exact (hs e).move hm hle
  · rw [h.others e he]
    exact hs e

theorem Issued.funded {m : ℤ} (hs : Funded s) (hm : 0 ≤ m) (h : Issued s t a d m) : Funded t := by
  intro e
  by_cases he : e = d
  · subst he
    rw [h.issued, h.supply]
    exact (hs e).issue hm
  · rw [h.others e he, h.otherSupply e he]
    exact hs e

end Transfers

end Zytherion.Bank
