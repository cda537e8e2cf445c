import Zytherion.HomomorphicVault
import Zytherion.ByteStrings

/-!
# The books of the homomorphic vault

The vault keeps a ciphertext, two counters and its configuration. Over any history of
calls, some of which fail and are rolled back, the ciphertext decrypts to the sum of
the deposits that went through, and the counters count the calls that went through.
The counters are words of 64 bits, so they count up to multiples of `2 ^ 64`.

Whatever the chain answers to an addition, it is assumed to be a ciphertext of the sum
if it is an answer at all. Each call may meet another chain.
-/
namespace Zytherion.VaultBooks

open GoCall ByteStrings HomomorphicVault

structure EncryptedBalanceResponse where
  encryptedBalance : List UInt8
  depositCount : UInt64
  hasBalance : Bool
deriving DecidableEq

def balanceResponse (stats : VaultStats) : Option (List UInt8) → EncryptedBalanceResponse
  | some ct => ⟨ct, stats.depositCount, true⟩
  | none => ⟨[], 0, false⟩

def queryEncryptedBalance : Exec EncryptedBalanceResponse := do
  let stats ← loadStats
  gets fun s => balanceResponse stats s.encryptedBalance

structure VaultInfoResponse where
  label : String
  owner : String
  depositCount : UInt64
  transferCount : UInt64
deriving DecidableEq

def queryVaultInfo : Exec VaultInfoResponse := do
  let config ← loadConfig
  let stats ← loadStats
  return ⟨config.label, config.owner, stats.depositCount, stats.transferCount⟩

/-- What ciphertexts hold, and that the chain adds it. -/
structure AddsEncrypted (D : Deps) (dec : List UInt8 → Option UInt32) : Prop where
  adds : ∀ a b x y raw result, dec a = some x → dec b = some y →
    D.rawQuery (.tfheAdd a b) = .ok raw → D.fromBinary raw = .ok result →
      dec result.ciphertext = some (x + y)

/-- A call of the contract, with the chain it meets. -/
structure ExecuteCall where
  deps : Deps
  sender : String
  msg : ExecuteMsg

def ExecuteCall.exec (c : ExecuteCall) : Exec Response := execute c.deps c.sender c.msg

/-- The bytes a call deposits. -/
def ExecuteCall.deposit (c : ExecuteCall) : Option (List UInt8) :=
  match c.msg with
  | .deposit ct _ => some ct
  | .transfer _ _ _ => none

/-- The storage, and the calls that went through. -/
structure Trace where
  storage : Storage
  done : List ExecuteCall

def step (t : Trace) (c : ExecuteCall) : Trace where
  storage := commit c.exec t.storage
  done := t.done ++ if (c.exec t.storage).returned.isSome then [c] else []

def deposits (done : List ExecuteCall) : List (List UInt8) := done.filterMap ExecuteCall.deposit

def transfers (done : List ExecuteCall) : List ExecuteCall :=
  done.filter fun c => c.deposit.isNone

variable (dec : List UInt8 → Option UInt32)

/-- The amount in a ciphertext. -/
def amountOf (ct : List UInt8) : ℕ := ((dec ct).map UInt32.toNat).getD 0

def deposited (done : List ExecuteCall) : ℕ := ((deposits done).map (amountOf dec)).sum

/-- Whatever is deposited is a ciphertext or empty, in which case the call fails, and the
chain adds. -/
def Proper (c : ExecuteCall) : Prop :=
  AddsEncrypted c.deps dec ∧ ∀ ct, c.deposit = some ct → ct = [] ∨ ∃ x, dec ct = some x

/-- The storage as the calls that went through should have left it. -/
structure Books (given : VaultConfig) (t : Trace) : Prop where
  config : t.storage.vaultConfig = some given
  stats : t.storage.vaultStats = some ⟨UInt64.ofNat (deposits t.done).length,
    UInt64.ofNat (transfers t.done).length⟩
  empty : deposits t.done = [] → t.storage.encryptedBalance = none
  balance : deposits t.done ≠ [] → ∃ ct x, t.storage.encryptedBalance = some ct ∧
    dec ct = some x ∧ x.toNat = deposited dec t.done % 2 ^ 32
  owner : ∀ pre c post, t.done = pre ++ c :: post → c.deposit = none →
    c.sender = given.owner ∧ deposits pre ≠ []

section Steps
variable {dec} {given : VaultConfig} {t : Trace} {c : ExecuteCall} {s u : Storage}

theorem deposits_snoc (done : List ExecuteCall) (c : ExecuteCall) :
    deposits (done ++ [c]) = deposits done ++ c.deposit.toList := by
  rw [deposits, List.filterMap_append]
  cases hc : c.deposit <;> simp [deposits, hc]

theorem transfers_snoc (done : List ExecuteCall) (c : ExecuteCall) :
    transfers (done ++ [c]) = transfers done ++ if c.deposit.isNone then [c] else [] := by
  rw [transfers, List.filter_append]
  cases hc : c.deposit <;> simp [transfers, hc]

theorem deposited_snoc {done : List ExecuteCall} {ct : List UInt8} (h : c.deposit = some ct) :
    deposited dec (done ++ [c]) = deposited dec done + amountOf dec ct := by
  rw [deposited, deposits_snoc, h]
  simp [deposited]

/-- A further call at the end of a history. -/
theorem Books.owner_snoc (h : Books dec given t)
    (hc : c.deposit = none → c.sender = given.owner ∧ deposits t.done ≠ []) :
    ∀ pre d post, t.done ++ [c] = pre ++ d :: post → d.deposit = none →
      d.sender = given.owner ∧ deposits pre ≠ [] := by
  intro pre d post hdone hd
  rcases snoc_eq_iff.mp hdone with ⟨-, rfl, rfl⟩ | ⟨r, -, hr⟩
  · exact hc hd
  · exact h.owner pre d r hr hd

/-- A deposit that went through. -/
theorem Books.deposit (h : Books dec given t) (hc : Proper dec c) {ct : List UInt8}
    {memo : Option String} {response : Response} (hmsg : c.msg = .deposit ct memo)
    (hexec : executeDeposit c.deps ct memo t.storage = .ok response u) :
    Books dec given ⟨u, t.done ++ [c]⟩ := by
  have hdeposit : c.deposit = some ct := by rw [ExecuteCall.deposit, hmsg]
  obtain ⟨hne, sum, stats, hsum, hstats, rfl⟩ := executeDeposit_ok.mp ⟨response, hexec⟩
  obtain ⟨y, hy⟩ := (hc.2 ct hdeposit).resolve_left hne
  have hamount : amountOf dec ct = y.toNat := by simp [amountOf, hy]
  have hcounts := h.stats.symm.trans hstats
  obtain rfl := Option.some.inj hcounts
  refine ⟨h.config, ?_, ?_, ?_, ?_⟩
  · simp [deposits_snoc, transfers_snoc, hdeposit]
  · intro hnone
    simp [deposits_snoc, hdeposit] at hnone
  · intro _
    refine ⟨sum, ?_⟩
    rw [deposited_snoc hdeposit, hamount]
    by_cases hfirst : deposits t.done = []
    · -- the first deposit is stored as it came
      rw [h.empty hfirst] at hsum
      obtain ⟨rfl, -⟩ := (pure_ok _ _).mp hsum
      refine ⟨y, rfl, hy, ?_⟩
      have hzero : deposited dec t.done = 0 := by rw [deposited, hfirst]; rfl
      rw [hzero, zero_add, Nat.mod_eq_of_lt y.toNat_lt]
    · obtain ⟨old, x, hold, hx, hvalue⟩ := h.balance hfirst
      rw [hold] at hsum
      obtain ⟨raw, result, hraw, hread, rfl, -⟩ := homomorphicAdd_ok.mp hsum
      refine ⟨x + y, rfl, hc.1.adds old ct x y raw result hx hy hraw hread, ?_⟩
      rw [UInt32.toNat_add, hvalue, Nat.mod_add_mod]
  · exact h.owner_snoc fun hnone => absurd (hdeposit.symm.trans hnone) (by simp)

/-- A transfer that went through. -/
theorem Books.transfer (h : Books dec given t) {recipient : String} {ct : List UInt8}
    {memo : Option String} {response : Response} (hmsg : c.msg = .transfer recipient ct memo)
    (hexec : executeTransfer c.sender recipient ct memo t.storage = .ok response u) :
    Books dec given ⟨u, t.done ++ [c]⟩ := by
  have hdeposit : c.deposit = none := by rw [ExecuteCall.deposit, hmsg]
  obtain ⟨config, balance, stats, hconfig, howner, hbalance, -, hstats, rfl⟩ :=
    executeTransfer_ok hexec
  obtain rfl := Option.some.inj (h.config.symm.trans hconfig)
  obtain rfl := Option.some.inj (h.stats.symm.trans hstats)
  have hsame : deposits (t.done ++ [c]) = deposits t.done := by
    rw [deposits_snoc, hdeposit, Option.toList_none, List.append_nil]
  have hsum : deposited dec (t.done ++ [c]) = deposited dec t.done := by
    rw [deposited, hsame, deposited]
  refine ⟨h.config, ?_, ?_, ?_, ?_⟩
  · simp [hsame, transfers_snoc, hdeposit]
  · rw [hsame]
    exact h.empty
  · rw [hsame, hsum]
    exact h.balance
  · refine h.owner_snoc fun _ => ⟨howner, fun hnone => ?_⟩
    simp [h.empty hnone] at hbalance

theorem Books.step (h : Books dec given t) (hc : Proper dec c) :
    Books dec given (VaultBooks.step t c) := by
  rcases commit_cases c.exec t.storage with ⟨response, hexec⟩ | ⟨hfailed, hsame⟩
  · have hreturned : (c.exec t.storage).returned.isSome = true := by rw [hexec]; rfl
    rw [VaultBooks.step, if_pos hreturned]
    cases hmsg : c.msg with
    | deposit ct memo =>
        rw [ExecuteCall.exec, hmsg] at hexec ⊢
        exact h.deposit hc hmsg hexec
    | transfer recipient ct memo =>
        rw [ExecuteCall.exec, hmsg] at hexec ⊢
        exact h.transfer hmsg hexec
  · have hreturned : (c.exec t.storage).returned.isSome = false := by
      cases hout : c.exec t.storage with
      | ok response u => exact absurd hout (hfailed response u)
      | err e u => rfl
      | panic reason => rfl
    rw [VaultBooks.step, hsame, hreturned]
    simpa using h

theorem books_instantiate {D : Deps} {msg : InstantiateMsg} {response : Response}
    (h : instantiate D msg ⟨none, none, none⟩ = .ok response s) :
    Books dec ⟨msg.label, msg.owner⟩ ⟨s, []⟩ := by
  rw [instantiate_ok h]
  refine ⟨rfl, rfl, fun _ => rfl, fun hnone => absurd rfl hnone, ?_⟩
  intro pre c post hdone
  simp at hdone

theorem Books.run (h : Books dec given t) {calls : List ExecuteCall}
    (hcalls : ∀ c ∈ calls, Proper dec c) : Books dec given (GoCall.run VaultBooks.step t calls) :=
  run_invariant (Books dec given) (Proper dec) (fun _ _ hc ht => ht.step hc) calls t h hcalls

/-- What the queries report. -/
theorem Books.queries (h : Books dec given t) :
    queryVaultInfo t.storage = .ok ⟨given.label, given.owner,
      UInt64.ofNat (deposits t.done).length, UInt64.ofNat (transfers t.done).length⟩ t.storage ∧
    ∃ ct, queryEncryptedBalance t.storage = .ok ⟨ct, UInt64.ofNat (deposits t.done).length,
      decide (0 < (deposits t.done).length)⟩ t.storage := by
  constructor
  · simp only [queryVaultInfo, loadConfig, loadStats, bind_ok, lookup_ok, pure_ok]
    exact ⟨_, _, ⟨h.config, rfl⟩, _, _, ⟨h.stats, rfl⟩, rfl, rfl⟩
  · simp only [queryEncryptedBalance, loadStats, bind_ok, lookup_ok, gets_ok]
    by_cases hnone : deposits t.done = []
    · refine ⟨[], _, _, ⟨h.stats, rfl⟩, ?_⟩
      rw [h.empty hnone, hnone]
      exact ⟨rfl, rfl⟩
    · obtain ⟨ct, -, hct, -⟩ := h.balance hnone
      refine ⟨ct, _, _, ⟨h.stats, rfl⟩, ?_⟩
      rw [hct, decide_eq_true (List.length_pos_iff.mpr hnone)]
      exact ⟨rfl, rfl⟩

end Steps
/-- Over any history of calls the balance decrypts to the sum of the deposits that went
through, modulo `2 ^ 32`; the counters are the numbers of deposits and of transfers that
went through, modulo `2 ^ 64`; a balance is reported exactly if a deposit went through;
every transfer that went through was sent by the owner after a deposit; label and owner
stay. -/
theorem vault_books (dec : List UInt8 → Option UInt32) (D : Deps) (msg : InstantiateMsg)
    (response : Response) (s : Storage)
    (hinit : instantiate D msg ⟨none, none, none⟩ = .ok response s) (calls : List ExecuteCall)
    (hcalls : ∀ c ∈ calls, Proper dec c) (t : Trace) (ht : t = run step ⟨s, []⟩ calls) :
    (deposits t.done ≠ [] → ∃ ct x, t.storage.encryptedBalance = some ct ∧ dec ct = some x ∧
      x.toNat = deposited dec t.done % 2 ^ 32) ∧
    (∃ ct count, queryEncryptedBalance t.storage =
        .ok ⟨ct, count, decide (0 < (deposits t.done).length)⟩ t.storage ∧
      count.toNat = (deposits t.done).length % 2 ^ 64) ∧
    (∃ deposited transferred, queryVaultInfo t.storage =
        .ok ⟨msg.label, msg.owner, deposited, transferred⟩ t.storage ∧
      deposited.toNat = (deposits t.done).length % 2 ^ 64 ∧
      transferred.toNat = (transfers t.done).length % 2 ^ 64) ∧
    ∀ pre c post, t.done = pre ++ c :: post → c.deposit = none →
      c.sender = msg.owner ∧ deposits pre ≠ [] := by
  have hbooks : Books dec ⟨msg.label, msg.owner⟩ t := by
    rw [ht]
    exact (books_instantiate hinit).run hcalls
  obtain ⟨hinfo, ct, hbalance⟩ := hbooks.queries
  exact ⟨hbooks.balance, ⟨ct, _, hbalance, UInt64.toNat_ofNat'⟩,
    ⟨_, _, hinfo, UInt64.toNat_ofNat', UInt64.toNat_ofNat'⟩, hbooks.owner⟩

/-! A chain whose ciphertexts are the four bytes of the number. -/

def clearDeps : Deps where
  addrValidate _ := .ok ()
  rawQuery
    | .tfheAdd ct1 ct2 => .ok (bigEndian 4 ((bigEndianValue ct1 + bigEndianValue ct2) % 2 ^ 32))
  fromBinary raw := .ok ⟨raw, 4⟩

def clearDec (ct : List UInt8) : Option UInt32 :=
  if ct.length = 4 then some (UInt32.ofNat (bigEndianValue ct)) else none

theorem clearDec_some {ct : List UInt8} {x : UInt32} (h : clearDec ct = some x) :
    UInt32.ofNat (bigEndianValue ct) = x := by
  unfold clearDec at h
  split_ifs at h
  exact Option.some.inj h

theorem clearDeps_adds : AddsEncrypted clearDeps clearDec := by
  constructor
  intro a b x y raw result ha hb hraw hread
  obtain rfl := QuerierResult.ok.inj hraw
  obtain rfl := Except.ok.inj hread
  have hlen : (bigEndian 4 ((bigEndianValue a + bigEndianValue b) % 2 ^ 32)).length = 4 :=
    bigEndian_length ..
  have hvalue : bigEndianValue (bigEndian 4 ((bigEndianValue a + bigEndianValue b) % 2 ^ 32)) =
      (bigEndianValue a + bigEndianValue b) % 2 ^ 32 :=
    bigEndianValue_bigEndian (Nat.mod_lt _ (by decide))
  rw [clearDec, if_pos hlen, hvalue, ← clearDec_some ha, ← clearDec_some hb]
  congr 1
  apply UInt32.toNat_inj.mp
  simp

def depositOne (sender : String) : ExecuteCall := ⟨clearDeps, sender, .deposit [0, 0, 0, 1] none⟩

def transferBy (sender : String) : ExecuteCall := ⟨clearDeps, sender, .transfer "bob" [] none⟩

theorem depositOne_proper (sender : String) : Proper clearDec (depositOne sender) := by
  refine ⟨clearDeps_adds, ?_⟩
  rintro ct ⟨⟩
  exact .inr ⟨1, by decide⟩

theorem transferBy_proper (sender : String) : Proper clearDec (transferBy sender) :=
  ⟨clearDeps_adds, by rintro ct ⟨⟩⟩

/-- Two deposits go through, a transfer by somebody else does not. -/
def someCalls : List ExecuteCall :=
  [depositOne "bob", transferBy "bob", depositOne "carol", transferBy "alice"]

theorem someCalls_proper : ∀ c ∈ someCalls, Proper clearDec c := by
  simp only [someCalls, List.forall_mem_cons]
  exact ⟨depositOne_proper _, transferBy_proper _, depositOne_proper _, transferBy_proper _,
    List.forall_mem_nil _⟩

theorem vault_books_two_deposits : ∃ ct x,
    (run step ⟨afterInstantiate, []⟩ someCalls).storage.encryptedBalance = some ct ∧
      clearDec ct = some x ∧ x.toNat = 2 := by
  have hsome : deposits (run step ⟨afterInstantiate, []⟩ someCalls).done ≠ [] ∧
      deposited clearDec (run step ⟨afterInstantiate, []⟩ someCalls).done % 2 ^ 32 = 2 := by
    decide +kernel
  obtain ⟨hbalance, -⟩ := vault_books clearDec clearDeps ⟨"vault", "alice"⟩ _ afterInstantiate rfl
    someCalls someCalls_proper _ rfl
  rw [← hsome.2]
  exact hbalance hsome.1

theorem depositOne_returns {s : Storage} (h : s.vaultStats ≠ none) :
    ∃ response t, (depositOne "bob").exec s = .ok response t := by
  obtain ⟨stats, hstats⟩ := Option.ne_none_iff_exists'.mp h
  have hsum : ∃ sum, accumulate clearDeps s.encryptedBalance [0, 0, 0, 1] s = .ok sum s := by
    cases s.encryptedBalance with
    | none => exact ⟨_, rfl⟩
    | some ct => exact ⟨_, rfl⟩
  obtain ⟨sum, hsum⟩ := hsum
  have hexec : ∃ response, executeDeposit clearDeps [0, 0, 0, 1] none s = .ok response _ :=
    executeDeposit_ok.mpr ⟨by decide, sum, stats, hsum, hstats, rfl⟩
  obtain ⟨response, hexec⟩ := hexec
  exact ⟨response, _, hexec⟩

theorem books_start : Books clearDec ⟨"vault", "alice"⟩ ⟨afterInstantiate, []⟩ :=
  books_instantiate (show instantiate clearDeps ⟨"vault", "alice"⟩ ⟨none, none, none⟩ =
    .ok [("action", "instantiate"), ("label", "vault"), ("owner", "alice")] afterInstantiate
    from rfl)

theorem replicate_proper (n : ℕ) : ∀ c ∈ List.replicate n (depositOne "bob"), Proper clearDec c :=
  fun _ hc => List.eq_of_mem_replicate hc ▸ depositOne_proper "bob"

/-- However many deposits are made, all go through. -/
theorem done_replicate (n : ℕ) :
    (run step ⟨afterInstantiate, []⟩ (List.replicate n (depositOne "bob"))).done =
      List.replicate n (depositOne "bob") := by
  induction n with
  | zero => rfl
  | succ n ih =>
      have hbooks := books_start.run (replicate_proper n)
      obtain ⟨response, t, hexec⟩ := depositOne_returns (by rw [hbooks.stats]; simp)
      rw [List.replicate_succ', run_snoc, step, hexec, ih]
      rfl

theorem deposits_replicate (n : ℕ) :
    (deposits (List.replicate n (depositOne "bob"))).length = n := by
  have hone : (depositOne "bob").deposit = some [0, 0, 0, 1] := rfl
  rw [deposits, List.filterMap_replicate_of_some hone, List.length_replicate]

/-- After as many deposits as the counter has values, it is back at zero. -/
theorem count_wraps : ∃ calls : List ExecuteCall, (∀ c ∈ calls, Proper clearDec c) ∧
    (deposits (run step ⟨afterInstantiate, []⟩ calls).done).length = 2 ^ 64 ∧
    ∃ ct, queryEncryptedBalance (run step ⟨afterInstantiate, []⟩ calls).storage =
      .ok ⟨ct, 0, true⟩ (run step ⟨afterInstantiate, []⟩ calls).storage := by
  have hcount : (deposits (run step ⟨afterInstantiate, []⟩
      (List.replicate (2 ^ 64) (depositOne "bob"))).done).length = 2 ^ 64 := by
    rw [done_replicate, deposits_replicate]
  obtain ⟨-, ct, hquery⟩ := (books_start.run (replicate_proper (2 ^ 64))).queries
  rw [hcount] at hquery
  exact ⟨_, replicate_proper (2 ^ 64), hcount, ct, hquery⟩

end Zytherion.VaultBooks
