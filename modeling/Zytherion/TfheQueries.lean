import Zytherion.KeySources
import Zytherion.Base64Text

/-!
# Custom queries of contracts

A contract asks the node it runs on to encrypt, decrypt, add or multiply. The answer
is computed with the node's own keys, which are taken from a cache, from two files in
the home directory or from the key generator, and an encryption draws on the node's
own randomness. Which of the three it is can be read off the node (`keySource`), and two
nodes answer alike exactly when the engine gives the same result under the keys of
both, and the randomness of both where it encrypts.
-/
namespace Zytherion.TfheQueries

open GoCall KeyedStore ByteStrings Application Base64Text NodeKeys KeySources

/-- The queries in the order in which the plugin looks for them, each a field of the
envelope that may be missing. -/
structure TFHECustomQuery where
  encrypt : Option UInt32
  decrypt : Option (List UInt8)
  addCT : Option (List UInt8 × List UInt8)
  mulScalar : Option (List UInt8 × UInt32)
  verifyCT : Option (List UInt8)
deriving DecidableEq

/-- The linked engine: keys come out of randomness, as ciphertexts do. -/
structure TfheEngine (Seed : Type) where
  generateKeys : Seed → Except Err TFHEKeyPair
  encryptUint32 : Seed → List UInt8 → UInt32 → Except Err (List UInt8)
  decryptUint32 : List UInt8 → List UInt8 → Except Err UInt32
  addUint32 : List UInt8 → List UInt8 → List UInt8 → Except Err (List UInt8)
  multiplyScalarUint32 : List UInt8 → List UInt8 → UInt32 → Except Err (List UInt8)

/-- What differs from node to node: its directories, the files and caches of its process,
what becomes of its reads and writes, and its randomness. -/
structure Node (Seed : Type) where
  surroundings : Surroundings
  process : Process
  readsClient : Bool
  readsServer : Bool
  clientWrite : WriteResult
  serverWrite : WriteResult
  keygenSeed : Seed
  encryptSeed : Seed

variable {Seed : Type}

abbrev Handler (Seed α : Type) : Type := Call (Node Seed) Err α

variable (E : TfheEngine Seed)

def Node.attempt (n : Node Seed) : Attempt where
  readsClient := n.readsClient
  readsServer := n.readsServer
  generated := E.generateKeys n.keygenSeed
  clientWrite := n.clientWrite
  serverWrite := n.serverWrite

/-- The plugin's loader, on the node's own process. -/
def ensureKeys : Handler Seed TFHEKeyPair := fun n =>
  zoom Node.process (fun n p => { n with process := p })
    (KeySources.ensureKeys n.surroundings .plugin (n.attempt E)) n

def ciphertextText (ct : List UInt8) : String :=
  "\x7b\"ciphertext\":\"" ++ (encodeBase64 ct ++ ("\"" ++
    (",\"size_bytes\":" ++ toString ct.length ++ "\x7d")))

def plaintextText (value : UInt32) : String := "\x7b\"value\":" ++ toString value.toNat ++ "\x7d"

def verifyText (valid : Bool) (sizeBytes : ℕ) (message : String) : String :=
  "\x7b\"valid\":" ++ toString valid ++ ",\"size_bytes\":" ++ toString sizeBytes ++
    ",\"message\":\"" ++ message ++ "\"\x7d"

/-- What the handlers that use a key have in common: the keys are loaded, the engine
is asked under them, and its result is written as JSON. -/
def withKeys {α : Type} (name failure : String)
    (ask : Seed → TFHEKeyPair → Except Err α) (text : α → String) :
    Handler Seed (List UInt8) := do
  let keys ← mapErr (.wrap (name ++ ": key error")) (ensureKeys E)
  let seed ← gets fun n => n.encryptSeed
  let result ← mapErr (.wrap (name ++ ": " ++ failure)) (ofExcept (ask seed keys))
  return utf8 (text result)

def handleEncrypt (value : UInt32) : Handler Seed (List UInt8) :=
  withKeys E "tfhe_encrypt" "encryption failed"
    (fun seed keys => E.encryptUint32 seed keys.clientKey value) ciphertextText

def handleDecrypt (ciphertext : List UInt8) : Handler Seed (List UInt8) := do
  require (ciphertext != []) (.plain "tfhe_decrypt: ciphertext is empty")
  withKeys E "tfhe_decrypt" "decryption failed"
    (fun _ keys => E.decryptUint32 keys.clientKey ciphertext) plaintextText

def handleAdd (ct1 ct2 : List UInt8) : Handler Seed (List UInt8) := do
  require (ct1 != [] && ct2 != []) (.plain "tfhe_add: both ct1 and ct2 must be non-empty")
  withKeys E "tfhe_add" "homomorphic addition failed"
    (fun _ keys => E.addUint32 keys.serverKey ct1 ct2) ciphertextText

def handleMulScalar (ciphertext : List UInt8) (scalar : UInt32) : Handler Seed (List UInt8) := do
  require (ciphertext != []) (.plain "tfhe_mul_scalar: ciphertext is empty")
  withKeys E "tfhe_mul_scalar" "multiplication failed"
    (fun _ keys => E.multiplyScalarUint32 keys.serverKey ciphertext scalar) ciphertextText

def minSize : ℕ := 8 * 1024

def maxSize : ℕ := 32 * 1024 * 1024

/-- Only the size is looked at. -/
def handleVerify (ciphertext : List UInt8) : Handler Seed (List UInt8) :=
  let size := ciphertext.length
  if size = 0 then pure (utf8 (verifyText false 0 "ciphertext is empty"))
  else if size < minSize ∨ maxSize < size then
    pure (utf8 (verifyText false size ("ciphertext size " ++ toString size ++
      " bytes out of expected range [" ++ toString minSize ++ ", " ++ toString maxSize ++ "]")))
  else pure (utf8 (verifyText true size "ciphertext appears well-formed"))

def answer : TFHECustomQuery → Handler Seed (List UInt8)
  | ⟨some value, _, _, _, _⟩ => handleEncrypt E value
  | ⟨none, some ciphertext, _, _, _⟩ => handleDecrypt E ciphertext
  | ⟨none, none, some cts, _, _⟩ => handleAdd E cts.1 cts.2
  | ⟨none, none, none, some product, _⟩ => handleMulScalar E product.1 product.2
  | ⟨none, none, none, none, some ciphertext⟩ => handleVerify ciphertext
  | ⟨none, none, none, none, none⟩ => fun n => .err (.plain
      ("tfhe: unknown custom query — supported: " ++
        "tfhe_encrypt, tfhe_decrypt, tfhe_add, tfhe_mul_scalar, tfhe_verify")) n

variable (unmarshal : List UInt8 → Except Err TFHECustomQuery)

def tfheQueryPlugin (request : List UInt8) : Handler Seed (List UInt8) := do
  let query ← mapErr (.wrap "tfhe: invalid custom query JSON") (ofExcept (unmarshal request))
  answer E query

/-- The bytes a contract gets on a node, if any. -/
def response (n : Node Seed) (request : List UInt8) : Option (List UInt8) :=
  (tfheQueryPlugin E unmarshal request n).returned

/-- Where the keys of a node come from: the cache or the files hold them, or they are
made out of a seed. -/
inductive KeySource (Seed : Type) where
  | given (keys : TFHEKeyPair)
  | generated (seed : Seed)

def KeySource.keys : KeySource Seed → Option TFHEKeyPair
  | given keys => some keys
  | generated seed => (E.generateKeys seed).toOption

section Sources
variable (n : Node Seed)

def Node.cache : TFHEKeyPair := n.process.cache .plugin

/-- What is read from a file of the user's home directory. -/
def Node.read (reads : Bool) (name : String) : Option (List UInt8) :=
  if reads then n.process.files (n.surroundings.userHomeDir.getD "." ++ "/" ++ name) else none

/-- A cached client key comes first, then two files that are both read and not empty,
then the generator. -/
def Node.keySource : KeySource Seed :=
  if n.cache.clientKey ≠ [] then .given n.cache
  else match n.read n.readsClient ".zytherion_tfhe_client.key",
      n.read n.readsServer ".zytherion_tfhe_server.key" with
    | some ck, some sk =>
        if ck ≠ [] ∧ sk ≠ [] then .given ⟨ck, sk⟩ else .generated n.keygenSeed
    | _, _ => .generated n.keygenSeed

end Sources

/-- What the engine tells a node, which may fail on it or have no keys to ask under. -/
def told {α : Type} (n : Node Seed) (ask : Seed → TFHEKeyPair → Except Err α) : Option α :=
  (n.keySource.keys E).bind fun keys => (ask n.encryptSeed keys).toOption

def encryption (n : Node Seed) (value : UInt32) : Option (List UInt8) :=
  told E n fun seed keys => E.encryptUint32 seed keys.clientKey value

def decryption (n : Node Seed) (ct : List UInt8) : Option UInt32 :=
  told E n fun _ keys => E.decryptUint32 keys.clientKey ct

def sum (n : Node Seed) (ct1 ct2 : List UInt8) : Option (List UInt8) :=
  told E n fun _ keys => E.addUint32 keys.serverKey ct1 ct2

def product (n : Node Seed) (ct : List UInt8) (scalar : UInt32) : Option (List UInt8) :=
  told E n fun _ keys => E.multiplyScalarUint32 keys.serverKey ct scalar

/-- The engine gives two nodes the same result, where it is asked at all. -/
def Agree (n₁ n₂ : Node Seed) : TFHECustomQuery → Prop
  | ⟨some value, _, _, _, _⟩ => encryption E n₁ value = encryption E n₂ value
  | ⟨none, some ct, _, _, _⟩ => ct = [] ∨ decryption E n₁ ct = decryption E n₂ ct
  | ⟨none, none, some cts, _, _⟩ =>
      (cts.1 = [] ∨ cts.2 = []) ∨ sum E n₁ cts.1 cts.2 = sum E n₂ cts.1 cts.2
  | ⟨none, none, none, some p, _⟩ => p.1 = [] ∨ product E n₁ p.1 p.2 = product E n₂ p.1 p.2
  | ⟨none, none, none, none, _⟩ => True

section Texts

theorem ciphertextText_inj {ct ct' : List UInt8} (h : ciphertextText ct = ciphertextText ct') :
    ct = ct' := by
  have hquote : ("\"" : String).toList = ['"'] := rfl
  have hchars := congrArg String.toList h
  simp only [ciphertextText, String.toList_append, hquote] at hchars
  have htail := List.append_cancel_left hchars
  apply encodeBase64_inj
  apply String.toList_inj.mp
  exact (separated_inj (quote_notMem_encodeBase64 ct) (quote_notMem_encodeBase64 ct') htail).1

theorem plaintextText_inj {v v' : UInt32} (h : plaintextText v = plaintextText v') : v = v' := by
  have hchars := congrArg String.toList h
  simp only [plaintextText, String.toList_append] at hchars
  have hdigits := List.append_cancel_left (List.append_cancel_right hchars)
  have hnat := toString_int_inj (i := Int.ofNat v.toNat) (j := Int.ofNat v'.toNat)
    (String.toList_inj.mp hdigits)
  exact UInt32.toNat_inj.mp (Int.ofNat.inj hnat)

theorem utf8_ciphertextText_inj :
    Function.Injective fun ct : List UInt8 => utf8 (ciphertextText ct) :=
  fun _ _ h => ciphertextText_inj (utf8_inj h)

theorem utf8_plaintextText_inj : Function.Injective fun v : UInt32 => utf8 (plaintextText v) :=
  fun _ _ h => plaintextText_inj (utf8_inj h)

end Texts

section Answers
variable {E} {n : Node Seed}

/-- Loading the keys draws on no randomness of encryption. -/
theorem ensureKeys_seed {keys : TFHEKeyPair} {n' : Node Seed}
    (h : ensureKeys E n = .ok keys n') : n'.encryptSeed = n.encryptSeed := by
  obtain ⟨p, -, rfl⟩ := (zoom_ok ..).mp h
  rfl

theorem keySource_cached (h : n.cache.clientKey ≠ []) : n.keySource = .given n.cache :=
  if_pos h

/-- Without a cached key the files decide, as the loader reads them. -/
theorem keySource_cold (h : n.cache.clientKey = []) :
    n.keySource = match (n.attempt E).loaded (n.process.node n.surroundings .plugin).disk with
      | some keys => .given keys
      | none => .generated n.keygenSeed := by
  have hloaded : (n.attempt E).loaded (n.process.node n.surroundings .plugin).disk =
      foundKeys (n.read n.readsClient ".zytherion_tfhe_client.key")
        (n.read n.readsServer ".zytherion_tfhe_server.key") := rfl
  rw [hloaded, Node.keySource, if_neg (not_not_intro h)]
  rcases n.read n.readsClient _ with _ | ck <;> rcases n.read n.readsServer _ with _ | sk
  · rfl
  · rfl
  · rfl
  · simp only [foundKeys, List.length_pos_iff]
    split_ifs <;> rfl

/-- The keys that a node loads are those its cache, its files and its seed give. -/
theorem ensureKeys_returned (n : Node Seed) :
    (ensureKeys E n).returned = n.keySource.keys E := by
  have hzoom : (ensureKeys E n).returned =
      (ensureNodeKeys (n.attempt E) (n.process.node n.surroundings .plugin)).returned := by
    unfold ensureKeys KeySources.ensureKeys zoom
    cases ensureNodeKeys (n.attempt E) (n.process.node n.surroundings .plugin) <;> rfl
  rw [hzoom]
  by_cases hwarm : n.cache.clientKey = []
  · have hcold : ¬ 0 < (n.process.node n.surroundings .plugin).cache.clientKey.length := by
      show ¬ 0 < n.cache.clientKey.length
      rw [hwarm]
      exact Nat.lt_irrefl 0
    rw [keySource_cold (E := E) hwarm]
    cases hloaded : (n.attempt E).loaded (n.process.node n.surroundings .plugin).disk with
    | some keys =>
        rw [ensure_found hcold hloaded]
        rfl
    | none =>
        cases hgen : E.generateKeys n.keygenSeed with
        | ok keys =>
            rw [ensure_generated hcold hloaded hgen]
            simp [KeySource.keys, hgen, Outcome.returned, Except.toOption]
        | error e =>
            rw [ensure_failed hcold hloaded hgen]
            simp [KeySource.keys, hgen, Outcome.returned, Except.toOption]
  · rw [keySource_cached hwarm, ensure_cached (List.length_pos_iff.mpr hwarm)]
    rfl

theorem toOption_eq_some {α : Type} {x : Except Err α} {a : α} :
    x.toOption = some a ↔ x = .ok a := by
  cases x <;> simp [Except.toOption]

theorem withKeys_returned {α : Type} (name failure : String)
    (ask : Seed → TFHEKeyPair → Except Err α) (text : α → String) :
    (withKeys E name failure ask text n).returned =
      (told E n ask).map fun a => utf8 (text a) := by
  ext bytes
  simp only [returned_iff, withKeys, told, bind_ok, mapErr_ok, gets_ok, ofExcept_ok, pure_ok,
    Option.map_eq_some_iff, Option.bind_eq_some_iff, ← ensureKeys_returned, toOption_eq_some]
  constructor
  · rintro ⟨_, keys, n', hkeys, _, _, ⟨rfl, rfl⟩, a, _, ⟨ha, rfl⟩, rfl, rfl⟩
    rw [ensureKeys_seed hkeys] at ha
    exact ⟨a, ⟨keys, ⟨n', hkeys⟩, ha⟩, rfl⟩
  · rintro ⟨a, ⟨keys, ⟨n', hkeys⟩, ha⟩, rfl⟩
    rw [← ensureKeys_seed hkeys] at ha
    exact ⟨n', keys, n', hkeys, _, _, ⟨rfl, rfl⟩, a, _, ⟨ha, rfl⟩, rfl, rfl⟩

/-- A text that determines the result shows whether two nodes were told the same. -/
theorem withKeys_same_iff {α : Type} {name failure : String}
    {ask : Seed → TFHEKeyPair → Except Err α} {text : α → String}
    (htext : Function.Injective fun a => utf8 (text a)) (n₁ n₂ : Node Seed) :
    (withKeys E name failure ask text n₁).returned =
        (withKeys E name failure ask text n₂).returned ↔ told E n₁ ask = told E n₂ ask := by
  rw [withKeys_returned, withKeys_returned, (Option.map_injective htext).eq_iff]

/-- A check on the query alone comes out the same on both nodes. -/
theorem require_same_iff {c : Bool} {e : Err} {x : Handler Seed (List UInt8)} (n₁ n₂ : Node Seed) :
    ((do require c e; x : Handler Seed (List UInt8)) n₁).returned =
        ((do require c e; x : Handler Seed (List UInt8)) n₂).returned ↔
      c = false ∨ (x n₁).returned = (x n₂).returned := by
  cases c with
  | false => exact ⟨fun _ => .inl rfl, fun _ => rfl⟩
  | true =>
      constructor
      · exact .inr
      · rintro (h | h)
        · cases h
        · exact h

theorem answer_same_iff (q : TFHECustomQuery) (n₁ n₂ : Node Seed) :
    (answer E q n₁).returned = (answer E q n₂).returned ↔ Agree E n₁ n₂ q := by
  match q with
  | ⟨some value, _, _, _, _⟩ => exact withKeys_same_iff utf8_ciphertextText_inj n₁ n₂
  | ⟨none, some ct, _, _, _⟩ =>
      refine (require_same_iff n₁ n₂).trans (or_congr ?_ ?_)
      · simp
      · exact withKeys_same_iff utf8_plaintextText_inj n₁ n₂
  | ⟨none, none, some cts, _, _⟩ =>
      refine (require_same_iff n₁ n₂).trans (or_congr ?_ ?_)
      · simp [or_iff_not_imp_left]
      · exact withKeys_same_iff utf8_ciphertextText_inj n₁ n₂
  | ⟨none, none, none, some p, _⟩ =>
      refine (require_same_iff n₁ n₂).trans (or_congr ?_ ?_)
      · simp
      · exact withKeys_same_iff utf8_ciphertextText_inj n₁ n₂
  | ⟨none, none, none, none, some ct⟩ =>
      simp only [Agree, answer, handleVerify, iff_true]
      split_ifs <;> rfl
  | ⟨none, none, none, none, none⟩ => exact iff_of_true rfl trivial

theorem response_eq {unmarshal : List UInt8 → Except Err TFHECustomQuery} {request : List UInt8}
    {q : TFHECustomQuery} (h : unmarshal request = .ok q) (n : Node Seed) :
    response E unmarshal n request = (answer E q n).returned := by
  unfold response tfheQueryPlugin
  rw [h]
  rfl

end Answers

/-- A node that has a pair of keys in its cache, and no file that it can read. -/
def cachedNode (keys : TFHEKeyPair) (seed : Seed) : Node Seed where
  surroundings := ⟨none, ""⟩
  process := ⟨fun _ => none, fun _ => keys⟩
  readsClient := false
  readsServer := false
  clientWrite := .refused
  serverWrite := .refused
  keygenSeed := seed
  encryptSeed := seed

/-- Whatever the engine, if decryption of some ciphertext depends on the key, then two
nodes that have these keys answer a contract differently. -/
theorem decryption_shows_node (E : TfheEngine Seed) {ct k₁ k₂ : List UInt8} (seed : Seed)
    (hct : ct ≠ []) (hk₁ : k₁ ≠ []) (hk₂ : k₂ ≠ [])
    (h : (E.decryptUint32 k₁ ct).toOption ≠ (E.decryptUint32 k₂ ct).toOption) :
    ∃ n₁ n₂ : Node Seed, ∀ (unmarshal : List UInt8 → Except Err TFHECustomQuery)
      (request : List UInt8), unmarshal request = .ok ⟨none, some ct, none, none, none⟩ →
        response E unmarshal n₁ request ≠ response E unmarshal n₂ request := by
  refine ⟨cachedNode ⟨k₁, []⟩ seed, cachedNode ⟨k₂, []⟩ seed, ?_⟩
  intro unmarshal request hquery hsame
  rw [response_eq hquery, response_eq hquery, answer_same_iff] at hsame
  rcases hsame with hempty | hsame
  · exact hct hempty
  · have hcached : ∀ k : List UInt8, k ≠ [] →
        decryption E (cachedNode ⟨k, []⟩ seed) ct = (E.decryptUint32 k ct).toOption := by
      intro k hk
      rw [decryption, told, keySource_cached (n := cachedNode ⟨k, []⟩ seed) hk]
      rfl
    rw [hcached k₁ hk₁, hcached k₂ hk₂] at hsame
    exact h hsame

/-- Two nodes return the same bytes for a request exactly when it is no query, or the
engine tells both the same about the query it asks, under the keys that their caches,
their files or their seeds give. -/
theorem same_response_iff (E : TfheEngine Seed)
    (unmarshal : List UInt8 → Except Err TFHECustomQuery) (request : List UInt8)
    (n₁ n₂ : Node Seed) :
    response E unmarshal n₁ request = response E unmarshal n₂ request ↔
      ∀ query, unmarshal request = .ok query → Agree E n₁ n₂ query := by
  cases h : unmarshal request with
  | error e =>
      refine iff_of_true ?_ (fun _ => nofun)
      unfold response tfheQueryPlugin
      rw [h]
      rfl
  | ok query =>
      rw [response_eq h, response_eq h, answer_same_iff]
      constructor
      · rintro hagree _ ⟨⟩
        exact hagree
      · intro hall
        exact hall query rfl

/-- An engine that adds the key to a number and subtracts it again. -/
def shiftEngine : TfheEngine UInt8 where
  generateKeys seed := .ok ⟨[seed], [seed]⟩
  encryptUint32 seed key value := .ok [key.headD 0 + UInt8.ofNat value.toNat, seed]
  decryptUint32 key ct := .ok (UInt32.ofNat (ct.headD 0 - key.headD 0).toNat)
  addUint32 _ ct1 ct2 := .ok [ct1.headD 0 + ct2.headD 0]
  multiplyScalarUint32 _ ct _ := .ok ct

/-- A node whose two key files hold one byte. -/
def nodeWith (key seed : UInt8) : Node UInt8 where
  surroundings := ⟨some "/root", ""⟩
  process :=
    { files := fun path =>
        if path = "/root/.zytherion_tfhe_client.key" ∨ path = "/root/.zytherion_tfhe_server.key"
        then some [key] else none
      cache := fun _ => noKeys }
  readsClient := true
  readsServer := true
  clientWrite := .written
  serverWrite := .written
  keygenSeed := seed
  encryptSeed := seed

def decryptRequest : List UInt8 :=
  utf8 "\x7b\"tfhe_decrypt\":\x7b\"ciphertext\":\"Bw==\"\x7d\x7d"

def encryptRequest : List UInt8 := utf8 "\x7b\"tfhe_encrypt\":\x7b\"value\":4\x7d\x7d"

def readRequest (request : List UInt8) : Except Err TFHECustomQuery :=
  if request = decryptRequest then .ok ⟨none, some [7], none, none, none⟩
  else if request = encryptRequest then .ok ⟨some 4, none, none, none, none⟩
  else .error (.plain "unexpected end of JSON input")

/-- A node that finds a key on disk and one that has it in its cache decrypt alike,
whatever their seeds. -/
theorem found_and_cached_same :
    response shiftEngine readRequest (nodeWith 1 0) decryptRequest =
      response shiftEngine readRequest (cachedNode ⟨[1], [1]⟩ 5) decryptRequest :=
  (same_response_iff shiftEngine readRequest decryptRequest (nodeWith 1 0)
    (cachedNode ⟨[1], [1]⟩ 5)).mpr fun query h => by
      have hread : readRequest decryptRequest = .ok ⟨none, some [7], none, none, none⟩ := by
        decide +kernel
      cases hread.symm.trans h
      exact .inr (by decide +kernel)

/-- Nodes with different key files read different numbers out of one ciphertext, and
nodes with the same files encrypt one number differently. -/
theorem nodes_answer_differently :
    response shiftEngine readRequest (nodeWith 1 0) decryptRequest =
        some (utf8 "\x7b\"value\":6\x7d") ∧
      response shiftEngine readRequest (nodeWith 2 0) decryptRequest =
        some (utf8 "\x7b\"value\":5\x7d") ∧
      response shiftEngine readRequest (nodeWith 1 0) encryptRequest =
        some (utf8 "\x7b\"ciphertext\":\"BQA=\",\"size_bytes\":2\x7d") ∧
      response shiftEngine readRequest (nodeWith 1 3) encryptRequest =
        some (utf8 "\x7b\"ciphertext\":\"BQM=\",\"size_bytes\":2\x7d") := by
  decide +kernel

end Zytherion.TfheQueries
