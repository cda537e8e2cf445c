import Zytherion.Bech32
import Zytherion.Bank

/-!
# A development network

The linked libraries with concrete values: the bech32 text form, the module
addresses (the first twenty bytes of the SHA-256 of each name) and the parser
of the one number default genesis contains. No key is registered on this
network and its blocks lie in the first migration phase, so that no hash is
taken and no signature is checked; both are left trivial.

Two accounts, `alice` and `bob`, start with ten thousand units of the chain's
own collateral each.
-/
namespace Zytherion.Devnet

open GoCall SdkMath Application ChainState Bank Bech32 Ledger

def moduleBytes : String → List UInt8
  | "fee_collector" => [241, 130, 150, 118, 219, 87, 118, 130, 233, 68, 252, 52, 147, 212, 81, 182,
      127, 243, 226, 159]
  | "distribution" => [147, 53, 72, 69, 3, 2, 116, 205, 75, 241, 104, 106, 189, 96, 171, 40, 236, 82,
      225, 167]
  | "interchainaccounts" => [103, 215, 116, 116, 202, 142, 58, 88, 18, 222, 50, 58, 40, 215, 198,
      218, 107, 62, 79, 41]
  | "mint" => [220, 111, 23, 187, 236, 130, 79, 255, 143, 134, 88, 121, 102, 178, 4, 125, 182, 171,
      115, 103]
  | "bonded_tokens_pool" => [79, 234, 118, 66, 123, 131, 69, 134, 30, 128, 163, 84, 10, 138, 157,
      147, 111, 211, 147, 145]
  | "not_bonded_tokens_pool" => [89, 17, 184, 68, 215, 188, 34, 70, 84, 254, 13, 205, 22, 186, 189,
      45, 37, 63, 47, 223]
  | "gov" => [123, 95, 226, 43, 84, 70, 247, 198, 46, 162, 123, 139, 215, 28, 239, 148, 224, 63, 61,
      242]
  | "transfer" => [39, 245, 118, 202, 251, 178, 99, 237, 68, 190, 139, 208, 148, 246, 97, 20, 218,
      38, 135, 119]
  | "privacy" => [164, 204, 107, 192, 26, 146, 126, 42, 120, 253, 59, 236, 81, 232, 101, 172, 13,
      133, 228, 218]
  | "ibc_collateral_vault" => [205, 224, 184, 215, 117, 177, 29, 209, 216, 180, 3, 235, 152, 31, 21,
      45, 175, 28, 107, 43]
  | "stablecoin_mint" => [79, 94, 240, 20, 19, 68, 141, 225, 36, 123, 18, 150, 107, 179, 110, 119,
      96, 220, 122, 164]
  | _ => [0]

theorem moduleBytes_length (name : String) :
    (moduleBytes name).length ≠ 0 ∧ (moduleBytes name).length ≤ 255 := by
  unfold moduleBytes
  split <;> decide

def convertAndEncode (hrp : String) (bytes : List UInt8) : String :=
  String.ofList (encodeChars hrp.toList bytes)

def decodeAndConvert (text : String) : Except Err (String × List UInt8) :=
  match decodeChars text.toList with
  | some (hrp, bytes) => .ok (String.ofList hrp, bytes)
  | none => .error (.plain "decoding bech32 failed")

theorem prefix_lower : ∀ c ∈ accountAddressPrefix.toList, c.toLower = c ∧ c.isUpper = false :=
  List.all_iff_forall_prop.mp (by decide)

def devnet : App where
  convertAndEncode := convertAndEncode
  decodeAndConvert := decodeAndConvert
  newModuleAddress name := ⟨moduleBytes name, (moduleBytes_length name).1, (moduleBytes_length name).2⟩
  newIntFromString text := if text = "0" then some .zero else none
  sha3Sum256 _ := []
  pqcVerify _ _ _ := false
  decode_encode a := by
    simp only [decodeAndConvert, convertAndEncode, String.toList_ofList,
      decodeChars_encodeChars _ _ prefix_lower, String.ofList_toList]
  encode_shape a := ⟨dataPart accountAddressPrefix.toList a.bytes,
    fun h => (dataPart_plain _ _ _ h).2.2.2 rfl, String.toList_ofList⟩
  newModuleAddress_inj := by decide
  newIntFromString_zero := rfl

def alice : AccAddress := ⟨[1, 1, 1, 1, 1, 1, 1, 1, 1, 1, 1, 1, 1, 1, 1, 1, 1, 1, 1, 1],
  by decide, by decide⟩

def bob : AccAddress := ⟨[2, 2, 2, 2, 2, 2, 2, 2, 2, 2, 2, 2, 2, 2, 2, 2, 2, 2, 2, 2],
  by decide, by decide⟩

theorem alice_ne_bob : alice ≠ bob := by decide

theorem alice_unblocked : devnet.blockedAddr alice = false := by decide +kernel

def treasury : BankGenesis where
  balances a d := if d = "uzytc" ∧ (a = alice ∨ a = bob) then .newInt 10000 else .zero
  supply d := if d = "uzytc" then .newInt 20000 else .zero
  backed d := by
    have hzero : Backed (fun _ : AccAddress => (0 : ℤ)) 0 := ⟨fun _ => le_refl 0, by simp⟩
    by_cases hd : d = "uzytc"
    · have htwo := (hzero.issue (a := alice) (n := 10000) (by decide)).issue (a := bob) (n := 10000)
        (by decide)
      convert htwo using 1
      · funext a
        simp only [issue, hd, true_and]
        by_cases ha : a = alice
        · simp [ha, alice_ne_bob]
        · by_cases hb : a = bob <;> simp [ha, hb, alice_ne_bob.symm]
      · simp [hd]
    · simpa [hd] using hzero

/-- An early block without vesting accounts. -/
def block : Ctx devnet where
  height := 1
  time := 1700000000
  lockedCoins _ _ := .zero
  lockedCoins_nonneg _ _ := le_refl 0
  lockedCoins_module _ _ _ := rfl

def blockAt (height : Int64) : Ctx devnet := { block with height := height }

end Zytherion.Devnet
