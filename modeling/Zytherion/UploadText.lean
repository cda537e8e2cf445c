import Zytherion.ShardPlacement

/-!
# The JSON text of an upload

The body of an upload is a JSON object whose strings are hexadecimal, so that
nothing in it is escaped. Different uploads have different texts, the closing brace
of a text is its only one, and its length is known from the lengths of the fields.
-/
namespace Zytherion.UploadText

open KeyedStore ByteStrings Shards ShardPlacement

def quoted (text : String) : List Char := '"' :: (text.toList ++ ['"'])

def field (name value : String) : List Char := quoted name ++ ':' :: quoted value

/-- A field with `omitempty`. -/
def optionalField (name value : String) : List Char :=
  if value = "" then [] else ',' :: field name value

/-- Everything up to the closing brace. -/
def uploadFields (u : ShardUpload) : List Char :=
  '\x7b' :: field "commitment_hex" u.commitmentHex ++
    ',' :: (quoted "index" ++ ':' :: (toString u.index).toList) ++
    ',' :: field "data_hex" u.dataHex ++
    ',' :: field "merkle_root_hex" u.merkleRootHex ++
    ',' :: field "merkle_proof_hex" u.merkleProofHex ++
    optionalField "proposer_pubkey_hex" u.proposerPubkeyHex ++
    optionalField "signature_hex" u.signatureHex

def uploadText (u : ShardUpload) : List Char := uploadFields u ++ ['\x7d']

/-- `json.Marshal` of an upload. -/
def marshalUpload (u : ShardUpload) : List UInt8 :=
  (uploadText u).map fun c => UInt8.ofNat c.toNat

/-- The texts of the upload consist of hexadecimal digits, and its index is one of
a shard. -/
structure Hexadecimal (u : ShardUpload) : Prop where
  commitmentHex : ∀ c ∈ u.commitmentHex.toList, (hexValue c).isSome
  dataHex : ∀ c ∈ u.dataHex.toList, (hexValue c).isSome
  merkleRootHex : ∀ c ∈ u.merkleRootHex.toList, (hexValue c).isSome
  merkleProofHex : ∀ c ∈ u.merkleProofHex.toList, (hexValue c).isSome
  proposerPubkeyHex : ∀ c ∈ u.proposerPubkeyHex.toList, (hexValue c).isSome
  signatureHex : ∀ c ∈ u.signatureHex.toList, (hexValue c).isSome
  index : 0 ≤ u.index ∧ u.index < erasureTotalShards

/-- What follows a field in hexadecimal begins with the quote that closes it. -/
theorem hex_inj {xs us ys vs : List Char} (hx : ∀ c ∈ xs, (hexValue c).isSome)
    (hu : ∀ c ∈ us, (hexValue c).isSome) (h : xs ++ '"' :: ys = us ++ '"' :: vs) :
    xs = us ∧ ys = vs := by
  have hquote : (hexValue '"').isSome = false := by decide
  refine separated_inj (fun hmem => ?_) (fun hmem => ?_) h
  · exact absurd (hx _ hmem) (by rw [hquote]; decide)
  · exact absurd (hu _ hmem) (by rw [hquote]; decide)

theorem shardIndex {i : ℤ} (hi : 0 ≤ i ∧ i < erasureTotalShards) :
    ∃ k : Fin erasureTotalShards, i = (k.val : ℤ) :=
  ⟨⟨i.toNat, by omega⟩, by dsimp only; omega⟩

theorem index_inj {i j : ℤ} (hi : 0 ≤ i ∧ i < erasureTotalShards)
    (hj : 0 ≤ j ∧ j < erasureTotalShards) {ys vs : List Char}
    (h : (toString i).toList ++ ',' :: ys = (toString j).toList ++ ',' :: vs) :
    i = j ∧ ys = vs := by
  have hcomma : ∀ k : Fin erasureTotalShards, ',' ∉ (toString (k.val : ℤ)).toList := by decide
  have hnumber : ∀ k l : Fin erasureTotalShards,
      (toString (k.val : ℤ)).toList = (toString (l.val : ℤ)).toList → k = l := by decide
  obtain ⟨k, rfl⟩ := shardIndex hi
  obtain ⟨l, rfl⟩ := shardIndex hj
  obtain ⟨hkl, hrest⟩ := separated_inj (hcomma k) (hcomma l) h
  rw [hnumber k l hkl]
  exact ⟨rfl, hrest⟩

/-- A field that is there is read back. -/
theorem optionalField_inj (name : String) {x y : String} {ys vs : List Char}
    (hx : ∀ c ∈ x.toList, (hexValue c).isSome) (hy : ∀ c ∈ y.toList, (hexValue c).isSome)
    (hx₀ : x ≠ "") (hy₀ : y ≠ "")
    (h : optionalField name x ++ ys = optionalField name y ++ vs) : x = y ∧ ys = vs := by
  simp only [optionalField, if_neg hx₀, if_neg hy₀, field, quoted, List.append_assoc,
    List.cons_append, List.nil_append, List.cons.injEq, true_and, List.append_cancel_left_eq] at h
  obtain ⟨hxy, hrest⟩ := hex_inj hx hy h
  exact ⟨String.toList_inj.mp hxy, hrest⟩

/-- The tail of an upload, from the signature on. -/
def signatureTail (signatureHex : String) : List Char :=
  optionalField "signature_hex" signatureHex ++ ['\x7d']

theorem signatureTail_inj {x y : String} (hx : ∀ c ∈ x.toList, (hexValue c).isSome)
    (hy : ∀ c ∈ y.toList, (hexValue c).isSome) (h : signatureTail x = signatureTail y) : x = y := by
  by_cases hx₀ : x = "" <;> by_cases hy₀ : y = ""
  · rw [hx₀, hy₀]
  · simp [signatureTail, optionalField, hx₀, hy₀] at h
  · simp [signatureTail, optionalField, hx₀, hy₀] at h
  · exact (optionalField_inj _ hx hy hx₀ hy₀ h).1

theorem signatureTail_ne (x y : String) (hy : y ≠ "") (tail : List Char) :
    signatureTail x ≠ optionalField "proposer_pubkey_hex" y ++ tail := by
  have hkey : "proposer_pubkey_hex".toList = 'p' :: "roposer_pubkey_hex".toList := rfl
  have hsig : "signature_hex".toList = 's' :: "ignature_hex".toList := rfl
  intro h
  by_cases hx : x = ""
  · simp [signatureTail, optionalField, hx, hy] at h
  · simp [signatureTail, optionalField, hx, hy, field, quoted, hkey, hsig] at h

theorem keyTail_inj {x y p q : String} (hx : ∀ c ∈ x.toList, (hexValue c).isSome)
    (hy : ∀ c ∈ y.toList, (hexValue c).isSome) (hp : ∀ c ∈ p.toList, (hexValue c).isSome)
    (hq : ∀ c ∈ q.toList, (hexValue c).isSome)
    (h : optionalField "proposer_pubkey_hex" x ++ signatureTail p =
      optionalField "proposer_pubkey_hex" y ++ signatureTail q) : x = y ∧ p = q := by
  have hnone : optionalField "proposer_pubkey_hex" "" = [] := rfl
  by_cases hx₀ : x = "" <;> by_cases hy₀ : y = ""
  · rw [hx₀, hy₀] at h
    exact ⟨hx₀.trans hy₀.symm, signatureTail_inj hp hq (List.append_cancel_left h)⟩
  · rw [hx₀, hnone, List.nil_append] at h
    exact (signatureTail_ne p y hy₀ _ h).elim
  · rw [hy₀, hnone, List.nil_append] at h
    exact (signatureTail_ne q x hx₀ _ h.symm).elim
  · obtain ⟨hxy, htail⟩ := optionalField_inj _ hx hy hx₀ hy₀ h
    exact ⟨hxy, signatureTail_inj hp hq htail⟩

/-- Different uploads have different texts. -/
theorem uploadText_inj {u v : ShardUpload} (hu : Hexadecimal u) (hv : Hexadecimal v)
    (h : uploadText u = uploadText v) : u = v := by
  simp only [uploadText, uploadFields, field, quoted, List.append_assoc, List.cons_append,
    List.nil_append, List.cons.injEq, true_and, List.append_cancel_left_eq] at h
  obtain ⟨hcommitment, h⟩ := hex_inj hu.commitmentHex hv.commitmentHex h
  simp only [List.cons.injEq, true_and, List.append_cancel_left_eq] at h
  obtain ⟨hindex, h⟩ := index_inj hu.index hv.index h
  simp only [List.cons.injEq, true_and, List.append_cancel_left_eq] at h
  obtain ⟨hdata, h⟩ := hex_inj hu.dataHex hv.dataHex h
  simp only [List.cons.injEq, true_and, List.append_cancel_left_eq] at h
  obtain ⟨hroot, h⟩ := hex_inj hu.merkleRootHex hv.merkleRootHex h
  simp only [List.cons.injEq, true_and, List.append_cancel_left_eq] at h
  obtain ⟨hproof, h⟩ := hex_inj hu.merkleProofHex hv.merkleProofHex h
  obtain ⟨hkey, hsig⟩ := keyTail_inj hu.proposerPubkeyHex hv.proposerPubkeyHex hu.signatureHex
    hv.signatureHex h
  cases u
  cases v
  simp only [String.toList_inj] at hcommitment hdata hroot hproof
  subst hcommitment hindex hdata hroot hproof hkey hsig
  rfl

/-! The characters of a text. -/

/-- An ASCII character other than the closing brace. -/
def Plain (c : Char) : Prop := c.toNat < 128 ∧ c ≠ '\x7d'

instance (c : Char) : Decidable (Plain c) := inferInstanceAs (Decidable (_ ∧ _))

theorem plain_of_all {text : List Char} (h : text.all (fun c => decide (Plain c)) = true) :
    ∀ c ∈ text, Plain c :=
  fun c hc => of_decide_eq_true (List.all_eq_true.mp h c hc)

theorem plain_of_hexValue {c : Char} (h : (hexValue c).isSome) : Plain c := by
  have hrange : ∀ lo hi : Char, hi.toNat < 125 → lo ≤ c ∧ c ≤ hi → Plain c := by
    rintro lo hi hhi ⟨-, hc⟩
    have hle : c.toNat ≤ hi.toNat := hc
    refine ⟨by omega, ?_⟩
    rintro rfl
    exact absurd hle (by rw [not_le]; exact hhi)
  unfold hexValue at h
  split_ifs at h with h₁ h₂ h₃
  · exact hrange _ _ (by decide) h₁
  · exact hrange _ _ (by decide) h₂
  · exact hrange _ _ (by decide) h₃
  · cases h

theorem plain_quoted {text : String} (h : ∀ c ∈ text.toList, Plain c) :
    ∀ c ∈ quoted text, Plain c := by
  intro c hc
  simp only [quoted, List.mem_cons, List.mem_append, List.not_mem_nil, or_false] at hc
  rcases hc with rfl | hc | rfl
  · decide
  · exact h c hc
  · decide

theorem plain_field {name value : String} (hname : ∀ c ∈ name.toList, Plain c)
    (hvalue : ∀ c ∈ value.toList, (hexValue c).isSome) : ∀ c ∈ field name value, Plain c := by
  intro c hc
  simp only [field, List.mem_append, List.mem_cons] at hc
  rcases hc with hc | rfl | hc
  · exact plain_quoted hname c hc
  · decide
  · exact plain_quoted (fun c hc => plain_of_hexValue (hvalue c hc)) c hc

theorem plain_optionalField {name value : String} (hname : ∀ c ∈ name.toList, Plain c)
    (hvalue : ∀ c ∈ value.toList, (hexValue c).isSome) :
    ∀ c ∈ optionalField name value, Plain c := by
  intro c hc
  unfold optionalField at hc
  split_ifs at hc
  · cases hc
  · rcases List.mem_cons.mp hc with rfl | hc
    · decide
    · exact plain_field hname hvalue c hc

theorem plain_index {i : ℤ} (hi : 0 ≤ i ∧ i < erasureTotalShards) :
    ∀ c ∈ (toString i).toList, Plain c := by
  have hfin : ∀ k : Fin erasureTotalShards,
      (toString (k.val : ℤ)).toList.all (fun c => decide (Plain c)) = true := by
    decide
  obtain ⟨k, rfl⟩ := shardIndex hi
  exact plain_of_all (hfin k)

theorem plain_uploadFields {u : ShardUpload} (hu : Hexadecimal u) :
    ∀ c ∈ uploadFields u, Plain c := by
  intro c hc
  simp only [uploadFields, List.mem_append, List.mem_cons] at hc
  rcases hc with ((((((rfl | hc) | rfl | hc | rfl | hc) | rfl | hc) | rfl | hc) | rfl | hc) | hc) |
    hc
  · decide
  · exact plain_field (plain_of_all (by decide)) hu.commitmentHex c hc
  · decide
  · exact plain_quoted (plain_of_all (by decide)) c hc
  · decide
  · exact plain_index hu.index c hc
  · decide
  · exact plain_field (plain_of_all (by decide)) hu.dataHex c hc
  · decide
  · exact plain_field (plain_of_all (by decide)) hu.merkleRootHex c hc
  · decide
  · exact plain_field (plain_of_all (by decide)) hu.merkleProofHex c hc
  · exact plain_optionalField (plain_of_all (by decide)) hu.proposerPubkeyHex c hc
  · exact plain_optionalField (plain_of_all (by decide)) hu.signatureHex c hc

theorem byte_inj {c d : Char} (hc : c.toNat < 128) (hd : d.toNat < 128)
    (h : UInt8.ofNat c.toNat = UInt8.ofNat d.toNat) : c = d := by
  have hnat := congrArg UInt8.toNat h
  rw [UInt8.toNat_ofNat', UInt8.toNat_ofNat'] at hnat
  exact Char.toNat_inj.mp (by omega)

theorem uploadText_ascii {u : ShardUpload} (hu : Hexadecimal u) :
    ∀ c ∈ uploadText u, c.toNat < 128 := by
  intro c hc
  rcases List.mem_append.mp hc with hc | hc
  · exact (plain_uploadFields hu c hc).1
  · rw [List.mem_singleton.mp hc]
    decide

theorem bytes_inj : ∀ {cs ds : List Char}, (∀ c ∈ cs, c.toNat < 128) → (∀ d ∈ ds, d.toNat < 128) →
    (cs.map fun c => UInt8.ofNat c.toNat) = (ds.map fun c => UInt8.ofNat c.toNat) → cs = ds
  | [], [], _, _, _ => rfl
  | [], d :: ds, _, _, h => by cases h
  | c :: cs, [], _, _, h => by cases h
  | c :: cs, d :: ds, hc, hd, h => by
      rw [List.forall_mem_cons] at hc hd
      simp only [List.map_cons, List.cons.injEq] at h
      rw [byte_inj hc.1 hd.1 h.1, bytes_inj hc.2 hd.2 h.2]

theorem marshalUpload_inj {u v : ShardUpload} (hu : Hexadecimal u) (hv : Hexadecimal v)
    (h : marshalUpload u = marshalUpload v) : u = v :=
  uploadText_inj hu hv (bytes_inj (uploadText_ascii hu) (uploadText_ascii hv) h)

/-- No text of an upload begins another: the closing brace comes only once. -/
theorem marshalUpload_truncated {u v : ShardUpload} (hu : Hexadecimal u) (hv : Hexadecimal v)
    {k : ℕ} (hk : k < (marshalUpload u).length) : (marshalUpload u).take k ≠ marshalUpload v := by
  intro h
  rw [marshalUpload, ← List.map_take] at h
  have htext : (uploadText u).take k = uploadText v :=
    bytes_inj (fun c hc => uploadText_ascii hu c (List.mem_of_mem_take hc)) (uploadText_ascii hv) h
  have hlen : k ≤ (uploadFields u).length := by
    rw [marshalUpload, List.length_map, uploadText, List.length_append, List.length_singleton] at hk
    omega
  rw [uploadText, List.take_append_of_le_length hlen] at htext
  have hbrace : '\x7d' ∈ (uploadFields u).take k := by
    rw [htext]
    exact List.mem_append_right _ (List.mem_singleton.mpr rfl)
  exact (plain_uploadFields hu _ (List.mem_of_mem_take hbrace)).2 rfl

open Classical in
/-- A decoder for these texts: what has one of them is read back. -/
noncomputable def readUpload (body : List UInt8) : Option ShardUpload :=
  if h : ∃ u, Hexadecimal u ∧ marshalUpload u = body then some h.choose else none

theorem readUpload_marshal (u : ShardUpload) (hu : Hexadecimal u) :
    readUpload (marshalUpload u) = some u := by
  have h : ∃ v, Hexadecimal v ∧ marshalUpload v = marshalUpload u := ⟨u, hu, rfl⟩
  rw [readUpload, dif_pos h, marshalUpload_inj h.choose_spec.1 hu h.choose_spec.2]

theorem readUpload_truncated (u : ShardUpload) (hu : Hexadecimal u) (k : ℕ)
    (hk : k < (marshalUpload u).length) : readUpload ((marshalUpload u).take k) = none := by
  refine dif_neg ?_
  rintro ⟨v, hv, h⟩
  exact marshalUpload_truncated hu hv hk h.symm

theorem quoted_length (text : String) : (quoted text).length = text.toList.length + 2 := by
  simp [quoted]

theorem field_length (name value : String) :
    (field name value).length = name.toList.length + value.toList.length + 5 := by
  rw [field, List.length_append, List.length_cons, quoted_length, quoted_length]
  omega

/-- The length of a body from the lengths of its fields. -/
theorem marshalUpload_length (u : ShardUpload) : (marshalUpload u).length =
    87 + u.commitmentHex.toList.length + (toString u.index).toList.length +
      u.dataHex.toList.length + u.merkleRootHex.toList.length + u.merkleProofHex.toList.length +
      (optionalField "proposer_pubkey_hex" u.proposerPubkeyHex).length +
      (optionalField "signature_hex" u.signatureHex).length := by
  have h₁ : "commitment_hex".toList.length = 14 := by decide
  have h₂ : "index".toList.length = 5 := by decide
  have h₃ : "data_hex".toList.length = 8 := by decide
  have h₄ : "merkle_root_hex".toList.length = 15 := by decide
  have h₅ : "merkle_proof_hex".toList.length = 16 := by decide
  simp only [marshalUpload, uploadText, uploadFields, List.length_map, List.length_append,
    List.length_cons, List.length_nil, quoted_length, field_length, h₁, h₂, h₃, h₄, h₅]
  omega

/-- A field that is written if its value has the right size. -/
theorem optionalField_sized (name : String) (b : List UInt8) {n : ℕ} (hn : n ≠ 0) :
    (optionalField name (if b.length = n then encodeToString b else "")).length =
      if b.length = n then name.toList.length + 2 * n + 6 else 0 := by
  split_ifs with hb
  · have hne : encodeToString b ≠ "" := by
      intro h
      have hlen := encodeToString_length b
      rw [h, hb] at hlen
      exact hn (by simpa using hlen.symm)
    rw [optionalField, if_neg hne, List.length_cons, field_length, encodeToString_length, hb]
  · rfl

/-- The length of the body `sendShardToPeer` builds. -/
theorem shardUpload_length (commitment root proof key sig : List UInt8) (sr : ShardResult) :
    (marshalUpload (shardUpload commitment sr root proof key sig)).length =
      87 + 2 * commitment.length + (toString sr.index).toList.length + 2 * sr.data.length +
        2 * root.length + 2 * proof.length +
        (if key.length = dilithiumPublicKeySize then 5209 else 0) +
        (if sig.length = dilithiumSignatureSize then 9209 else 0) := by
  have hkey : "proposer_pubkey_hex".toList.length + 2 * dilithiumPublicKeySize + 6 = 5209 := by
    decide
  have hsig : "signature_hex".toList.length + 2 * dilithiumSignatureSize + 6 = 9209 := by decide
  rw [marshalUpload_length, shardUpload]
  simp only [encodeToString_length]
  rw [optionalField_sized _ key (by decide), optionalField_sized _ sig (by decide), hkey, hsig]

end Zytherion.UploadText
