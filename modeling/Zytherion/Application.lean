import Zytherion.GoCall
import Zytherion.KeyedStore
import Zytherion.SdkMath

/-!
# Accounts, module accounts and the linked libraries

An account address is a byte string of one to 255 bytes. Its text form, the
addresses of the module accounts, the hash and the signature check come from
libraries the application links; `App` collects them together with what they
document: the text form is read back, it is the chain's prefix, a `1` and
characters other than the slash, and different module names have different
addresses.

The module account table and the set of addresses that may not receive coins
are the application's own.
-/
namespace Zytherion.Application

open GoCall KeyedStore SdkMath

/-- A registered error of a code space, an error with context put before it,
and an error that is only a text. -/
inductive Err where
  | registered (codespace : String) (code : ℕ) (description : String)
  | wrap (context : String) (cause : Err)
  | plain (message : String)
deriving DecidableEq, Repr

def Err.text : Err → String
  | .registered _ _ description => description
  | .wrap context cause => context ++ ": " ++ cause.text
  | .plain message => message

def errUnauthorized : Err := .registered "sdk" 4 "unauthorized"
def errInsufficientFunds : Err := .registered "sdk" 5 "insufficient funds"
def errUnknownAddress : Err := .registered "sdk" 9 "unknown address"
def errInvalidCoins : Err := .registered "sdk" 10 "invalid coins"

structure AccAddress where
  bytes : List UInt8
  nonempty : bytes.length ≠ 0
  short : bytes.length ≤ 255
deriving DecidableEq

def accountAddressPrefix : String := "zyth"

inductive Permission where
  | minter
  | burner
  | staking
deriving DecidableEq, Repr

/-- The module accounts of the application and what each may do. -/
def maccPerms : List (String × List Permission) :=
  [("fee_collector", []),
    ("distribution", []),
    ("interchainaccounts", []),
    ("mint", [.minter]),
    ("bonded_tokens_pool", [.burner, .staking]),
    ("not_bonded_tokens_pool", [.burner, .staking]),
    ("gov", [.burner]),
    ("transfer", [.minter, .burner]),
    ("privacy", [.minter, .burner, .staking]),
    ("ibc_collateral_vault", [.burner, .minter]),
    ("stablecoin_mint", [.burner, .minter])]

def maccNames : List String := maccPerms.map Prod.fst

/-- What the application links. -/
structure App where
  convertAndEncode : String → List UInt8 → String
  decodeAndConvert : String → Except Err (String × List UInt8)
  newModuleAddress : String → AccAddress
  newIntFromString : String → Option SdkInt
  sha3Sum256 : List UInt8 → List UInt8
  pqcVerify : (message signature pubKey : List UInt8) → Bool
  decode_encode : ∀ a : AccAddress,
    decodeAndConvert (convertAndEncode accountAddressPrefix a.bytes) =
      .ok (accountAddressPrefix, a.bytes)
  encode_shape : ∀ a : AccAddress, ∃ data : List Char, '/' ∉ data ∧
    (convertAndEncode accountAddressPrefix a.bytes).toList =
      accountAddressPrefix.toList ++ '1' :: data
  newModuleAddress_inj : ∀ m ∈ maccNames, ∀ n ∈ maccNames,
    newModuleAddress m = newModuleAddress n → m = n
  newIntFromString_zero : newIntFromString "0" = some SdkInt.zero

/-- The characters `strings.TrimSpace` removes. -/
def isSpace (c : Char) : Bool :=
  c.toNat ∈ [0x09, 0x0a, 0x0b, 0x0c, 0x0d, 0x20, 0x85, 0xa0, 0x1680, 0x2028, 0x2029, 0x202f,
    0x205f, 0x3000] || (0x2000 ≤ c.toNat && c.toNat ≤ 0x200a)

namespace App
variable (A : App)

/-- `AccAddress.String`. -/
def text (a : AccAddress) : String := A.convertAndEncode accountAddressPrefix a.bytes

def getFromBech32 (address : String) : Except Err (List UInt8) :=
  if address = "" then
    .error (.plain "decoding Bech32 address failed: must provide a non empty address")
  else
    match A.decodeAndConvert address with
    | .error e => .error e
    | .ok (hrp, bytes) =>
        if hrp ≠ accountAddressPrefix then
          .error (.plain ("invalid Bech32 prefix; expected " ++ accountAddressPrefix ++ ", got " ++
            hrp))
        else .ok bytes

def verifyAddressFormat (bytes : List UInt8) : Except Err AccAddress :=
  if h₁ : bytes.length = 0 then .error (.wrap "addresses cannot be empty" errUnknownAddress)
  else if h₂ : 255 < bytes.length then
    .error (.wrap ("address max length is 255, got " ++ toString bytes.length) errUnknownAddress)
  else .ok ⟨bytes, h₁, Nat.le_of_not_lt h₂⟩

def accAddressFromBech32 (address : String) : Except Err AccAddress :=
  if address.toList.all isSpace then .error (.plain "empty address string is not allowed")
  else
    match A.getFromBech32 address with
    | .error e => .error e
    | .ok bytes => verifyAddressFormat bytes

theorem text_slash (a : AccAddress) : '/' ∉ (A.text a).toList := by
  obtain ⟨data, hdata, h⟩ := A.encode_shape a
  rw [text, h, List.mem_append, List.mem_cons]
  rintro (hp | hp | hp)
  · revert hp
    decide
  · revert hp
    decide
  · exact hdata hp

/-- The text of an address is read back as the address. -/
@[simp] theorem accAddressFromBech32_text (a : AccAddress) :
    A.accAddressFromBech32 (A.text a) = .ok a := by
  obtain ⟨data, -, h⟩ := A.encode_shape a
  have hz : 'z' ∈ (A.text a).toList := by
    rw [text, h]
    exact List.mem_append_left _ (by decide)
  have hspace : (A.text a).toList.all isSpace = false := by
    rw [List.all_eq_false]
    exact ⟨'z', hz, by decide⟩
  have hne : A.text a ≠ "" := by
    intro he
    rw [he] at hz
    exact absurd hz (by decide)
  have hbytes : A.getFromBech32 (A.text a) = .ok a.bytes := by
    have hd : A.decodeAndConvert (A.text a) = .ok (accountAddressPrefix, a.bytes) :=
      A.decode_encode a
    simp [getFromBech32, hne, hd]
  simp [accAddressFromBech32, hspace, hbytes, verifyAddressFormat, a.nonempty,
    not_lt.mpr a.short]

theorem text_inj {a b : AccAddress} (h : A.text a = A.text b) : a = b := by
  have ha := A.accAddressFromBech32_text a
  rw [h, accAddressFromBech32_text] at ha
  exact (Except.ok.inj ha).symm

/-- Store keys of the form `prefix`, owner tell owners apart. -/
theorem textKey_inj (label : String) {a b : AccAddress}
    (h : label ++ A.text a = label ++ A.text b) : a = b := by
  have hl := congrArg String.toList h
  simp only [String.toList_append, List.append_cancel_left_eq] at hl
  exact A.text_inj (String.toList_inj.mp hl)

/-- Store keys of the form `prefix`, owner, slash, denomination tell owners and
denominations apart. -/
theorem ownerKey_inj (label : String) {a b : AccAddress} {d e : String}
    (h : label ++ A.text a ++ "/" ++ d = label ++ A.text b ++ "/" ++ e) : a = b ∧ d = e := by
  have hl := congrArg String.toList h
  simp only [String.toList_append, List.append_assoc, List.append_cancel_left_eq] at hl
  have hs : (A.text a).toList ++ '/' :: d.toList = (A.text b).toList ++ '/' :: e.toList := hl
  obtain ⟨ht, hd⟩ := separated_inj (A.text_slash a) (A.text_slash b) hs
  exact ⟨A.text_inj (String.toList_inj.mp ht), String.toList_inj.mp hd⟩

/-- `GetModuleAddress`: nil for a name outside the table. -/
def getModuleAddress (name : String) : Option AccAddress :=
  if name ∈ maccNames then some (A.newModuleAddress name) else none

/-- `GetModuleAccount` and `HasPermission`. -/
def hasPermission (name : String) (p : Permission) : Bool :=
  maccPerms.any fun entry => entry.1 == name && entry.2.contains p

/-- `BlockedModuleAccountAddrs`: every module account but that of governance. -/
def blockedModuleAccountAddrs : List String :=
  (maccNames.map fun name => A.text (A.newModuleAddress name)).filter
    (· ≠ A.text (A.newModuleAddress "gov"))

def blockedAddr (a : AccAddress) : Bool := A.blockedModuleAccountAddrs.contains (A.text a)

theorem blockedAddr_module {name : String} (h : name ∈ maccNames) (hgov : name ≠ "gov") :
    A.blockedAddr (A.newModuleAddress name) = true := by
  simp only [blockedAddr, blockedModuleAccountAddrs, List.contains_iff_mem, List.mem_filter,
    List.mem_map, decide_eq_true_eq]
  refine ⟨⟨name, h, rfl⟩, fun ht => hgov ?_⟩
  exact A.newModuleAddress_inj name h "gov" (by decide) (A.text_inj ht)

end App

end Zytherion.Application
