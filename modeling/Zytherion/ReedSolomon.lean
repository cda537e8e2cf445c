import Zytherion.MdsCodes
import Zytherion.ErasureDecoding
import Zytherion.ShardServer
import Mathlib.FieldTheory.Finite.GaloisField

/-!
# The Reed-Solomon coder

The linked library cuts the data into twelve pieces of one length, filled up with
zeros, and adds four pieces, so that any twelve of the sixteen determine the rest. It
checks pieces by computing the four again, and it fills in missing pieces from twelve
of those that are there, whichever it likes.

Split and `ReconstructFromResults` are inverse to each other as long as twelve shards
are left. If more are left than that, a few of them may have been replaced, and this
does not go unnoticed.
-/
namespace Zytherion.ReedSolomon

open Application ByteStrings Shards ErasureDecoding MdsCodes ShardServer

abbrev Pieces : Type := Vector (List UInt8) erasureTotalShards

def Even (size : ℕ) (v : Pieces) : Prop := ∀ i, (v.get i).length = size

/-- The pieces that are there have one length. -/
def EvenWherePresent (size : ℕ) (v : Pieces) : Prop :=
  ∀ i, v.get i ≠ [] → (v.get i).length = size

/-- What is missing is taken from a word. -/
def filled (v : Pieces) (c : Fin erasureTotalShards → List UInt8) : Pieces :=
  Vector.ofFn fun i => if v.get i = [] then c i else v.get i

/-- The library for twelve data and four parity pieces. The code is given for each
length of the pieces. -/
structure Coder (L : ShardLibs) where
  code : ℕ → Set (Fin erasureTotalShards → List UInt8)
  mds : ∀ size, Mds erasureDataShards {s : List UInt8 | s.length = size} (code size)
  encReconstruct : Pieces → Except Err Pieces
  encVerify : Pieces → Except Err Bool
  split_pads : ∀ data, data ≠ [] → L.encSplit data = .ok (evenShards data)
  encode_codeword : ∀ size v, 0 < size → Even size v → ∃ w, L.encEncode v = .ok w ∧
    w.get ∈ code size ∧ ∀ i, i.val < erasureDataShards → w.get i = v.get i
  verify_even : ∀ size w, 0 < size → Even size w →
    ∃ ok, encVerify w = .ok ok ∧ (ok = true ↔ w.get ∈ code size)
  verify_uneven : ∀ w, (∀ size, 0 < size → ¬ Even size w) → ∃ e, encVerify w = .error e
  reconstruct_few : ∀ v, present v < erasureDataShards → ∃ e, encReconstruct v = .error e
  reconstruct_uneven : ∀ v, (∀ size, ¬ EvenWherePresent size v) →
    ∃ e, encReconstruct v = .error e
  reconstruct_fills : ∀ size v, EvenWherePresent size v → erasureDataShards ≤ present v →
    ∃ (S : Finset (Fin erasureTotalShards)) (c : Fin erasureTotalShards → List UInt8),
      S.card = erasureDataShards ∧ (∀ i ∈ S, v.get i ≠ [] ∧ c i = v.get i) ∧ c ∈ code size ∧
      encReconstruct v = .ok (filled v c)

theorem get_ofFn (f : Fin erasureTotalShards → List UInt8) (i : Fin erasureTotalShards) :
    (Vector.ofFn f).get i = f i := by
  rw [← getElem_eq_get, Fin.getElem_fin, Vector.getElem_ofFn]

theorem get_ext {v w : Pieces} (h : ∀ i, v.get i = w.get i) : v = w :=
  Vector.ext fun i hi => h ⟨i, hi⟩

theorem countP_eq_card {α : Type} (v : Vector α erasureTotalShards) (P : α → Bool) :
    v.toList.countP P = (Finset.univ.filter fun i => P (v.get i) = true).card := by
  have hlist : v.toList = (List.finRange erasureTotalShards).map v.get :=
    List.ext_getElem (by simp) fun i _ _ => by simp; rfl
  rw [hlist, List.countP_map, List.countP_eq_length_filter,
    ← List.toFinset_card_of_nodup ((List.nodup_finRange _).filter _), List.toFinset_filter,
    List.toFinset_finRange]
  rfl

theorem Even.size_eq {v : Pieces} {size size' : ℕ} (h : Even size v) (h' : Even size' v) :
    size = size' :=
  (h ⟨0, by decide⟩).symm.trans (h' ⟨0, by decide⟩)

section Laws
variable {L : ShardLibs} (E : Coder L) {v w : Pieces}

theorem filled_present {c : Fin erasureTotalShards → List UInt8} {i : Fin erasureTotalShards}
    (h : v.get i ≠ []) : (filled v c).get i = v.get i := by
  rw [filled, get_ofFn, if_neg h]

/-- Pieces that pass the check are a word of the code. -/
theorem verified (h : E.encVerify w = .ok true) :
    ∃ size, 0 < size ∧ Even size w ∧ w.get ∈ E.code size := by
  by_cases heven : ∃ size, 0 < size ∧ Even size w
  · obtain ⟨size, hpos, heven⟩ := heven
    obtain ⟨ok, hok, hcode⟩ := E.verify_even size w hpos heven
    exact ⟨size, hpos, heven, hcode.mp (Except.ok.inj (hok.symm.trans h))⟩
  · obtain ⟨e, he⟩ := E.verify_uneven w fun size hpos hs => heven ⟨size, hpos, hs⟩
    cases he.symm.trans h

theorem verifies {size : ℕ} (hpos : 0 < size) (h : w.get ∈ E.code size) :
    E.encVerify w = .ok true := by
  obtain ⟨ok, hok, hcode⟩ := E.verify_even size w hpos ((E.mds size).letters _ h)
  rw [hok, hcode.mpr h]

theorem verify_present (w : Pieces) (h : E.encVerify w = .ok true)
    (i : Fin erasureTotalShards) : w.get i ≠ [] := by
  obtain ⟨size, hpos, heven, -⟩ := verified E h
  rw [← List.length_pos_iff, heven i]
  exact hpos

theorem reconstruct_agrees (v w : Pieces) (h : E.encReconstruct v = .ok w) :
    erasureDataShards ≤ present v ∧ ∀ i, v.get i ≠ [] → w.get i = v.get i := by
  have henough : erasureDataShards ≤ present v := by
    by_contra hfew
    obtain ⟨e, he⟩ := E.reconstruct_few v (not_le.mp hfew)
    cases he.symm.trans h
  by_cases heven : ∃ size, EvenWherePresent size v
  · obtain ⟨size, heven⟩ := heven
    obtain ⟨S, c, -, -, -, hfilled⟩ := E.reconstruct_fills size v heven henough
    obtain rfl := Except.ok.inj (hfilled.symm.trans h)
    exact ⟨henough, fun i hi => filled_present hi⟩
  · obtain ⟨e, he⟩ := E.reconstruct_uneven v fun size hs => heven ⟨size, hs⟩
    cases he.symm.trans h

/-- Twelve pieces of a word are filled in to the word. -/
theorem reconstruct_complete (v w : Pieces) (hw : E.encVerify w = .ok true)
    (henough : erasureDataShards ≤ present v)
    (hagrees : ∀ i, v.get i ≠ [] → w.get i = v.get i) : E.encReconstruct v = .ok w := by
  obtain ⟨size, -, heven, hcode⟩ := verified E hw
  have hsizes : EvenWherePresent size v := fun i hi => by rw [← hagrees i hi, heven i]
  obtain ⟨S, c, hS, hc, hcc, hfilled⟩ := E.reconstruct_fills size v hsizes henough
  have hword : c = w.get := (E.mds size).eq_of_agree hcc hcode hS.ge fun i hi => by
    rw [(hc i hi).2, hagrees i (hc i hi).1]
  rw [hfilled, hword]
  congr 1
  refine get_ext fun i => ?_
  rw [filled, get_ofFn]
  split_ifs with hi
  · rfl
  · exact (hagrees i hi).symm

end Laws

/-! What is cut up can be joined again. -/

theorem dataOf_congr {v w : Pieces} (h : ∀ i, i.val < erasureDataShards → w.get i = v.get i) :
    dataOf w = dataOf v := by
  unfold dataOf
  congr 1
  refine List.ext_getElem (by simp) fun i hi hi' => ?_
  have hlen : i < erasureDataShards ∧ i < erasureTotalShards := by simpa using hi
  rw [List.getElem_take, List.getElem_take, Vector.getElem_toList, Vector.getElem_toList]
  exact h ⟨i, hlen.2⟩ hlen.1

theorem evenShards_begin (data : List UInt8) : data <+: dataOf (evenShards data) := by
  have hchunks : (evenShards data).toList.take erasureDataShards =
      (List.range erasureDataShards).map fun i =>
        ((data ++ List.replicate (16 * ((data.length + 11) / 12)) 0).drop
          (i * ((data.length + 11) / 12))).take ((data.length + 11) / 12) := by
    refine List.ext_getElem ?_ fun i hi hi' => ?_
    · rw [List.length_take, Vector.length_toList, List.length_map, List.length_range]
      rfl
    · simp only [List.getElem_take, Vector.getElem_toList, evenShards, Vector.getElem_ofFn,
        List.getElem_map, List.getElem_range]
  rw [dataOf, hchunks, flatten_chunks]
  refine List.prefix_of_prefix_length_le (List.prefix_append data _) (List.take_prefix _ _) ?_
  rw [List.length_take, List.length_append, List.length_replicate]
  show data.length ≤ min (12 * ((data.length + 11) / 12)) _
  omega

section Splitting
variable {L : ShardLibs} (E : Coder L)

/-- The pieces of some data, before and after the parity is added. -/
theorem encoded {data : List UInt8} (hdata : data ≠ []) : ∃ w, E.encVerify w = .ok true ∧
    L.encEncode (evenShards data) = .ok w ∧ data <+: dataOf w := by
  have hpos : 0 < (data.length + 11) / 12 := by
    have := List.length_pos_iff.mpr hdata
    omega
  obtain ⟨w, hw, hcode, hsame⟩ := E.encode_codeword _ (evenShards data) hpos
    (evenShards_length data)
  refine ⟨w, verifies E hpos hcode, hw, ?_⟩
  rw [dataOf_congr hsame]
  exact evenShards_begin data

theorem encode_verifies (data : List UInt8) (v w : Pieces) (hdata : data ≠ [])
    (hv : L.encSplit data = .ok v) (hw : L.encEncode v = .ok w) :
    E.encVerify w = .ok true ∧ data <+: dataOf w := by
  obtain rfl := Except.ok.inj ((E.split_pads data hdata).symm.trans hv)
  obtain ⟨w', hverify, hw', hbegin⟩ := encoded E hdata
  obtain rfl := Except.ok.inj (hw'.symm.trans hw)
  exact ⟨hverify, hbegin⟩

/-- The library is a decoder for its own encoder. -/
def Coder.toDecoder : Decoder L where
  encReconstruct := E.encReconstruct
  encVerify := E.encVerify
  verify_present := verify_present E
  reconstruct_agrees := reconstruct_agrees E
  reconstruct_complete := reconstruct_complete E
  encode_verifies := encode_verifies E

/-- `Split` returns the numbered pieces of a word of the code that begins with the data. -/
theorem split_returns {data : List UInt8} (hdata : data ≠ []) :
    ∃ w, E.encVerify w = .ok true ∧ data <+: dataOf w ∧ split L data = .ok (numbered w) := by
  obtain ⟨w, hverify, hw, hbegin⟩ := encoded E hdata
  refine ⟨w, hverify, hbegin, ?_⟩
  rw [split, if_neg (by rwa [List.isEmpty_iff]), E.split_pads data hdata]
  simp only [hw]

end Splitting

/-! The coder over a field with 256 elements: piece `i` holds the values of polynomials of
degree less than twelve at the point `i`. -/

section Field
open Classical

def byteIndex : UInt8 ≃ Fin 256 := ⟨UInt8.toFin, UInt8.ofFin, fun _ => rfl, fun _ => rfl⟩

theorem card_field : Nat.card (GaloisField 2 8) = 256 := GaloisField.card 2 8 (by decide)

theorem card_field_ne_zero : Nat.card (GaloisField 2 8) ≠ 0 := by
  rw [card_field]
  decide

noncomputable def byteField : UInt8 ≃ GaloisField 2 8 :=
  byteIndex.trans ((Nat.equivFinOfCardPos card_field_ne_zero).trans (finCongr card_field)).symm

noncomputable def point (i : Fin erasureTotalShards) : GaloisField 2 8 :=
  byteField (UInt8.ofNat i.val)

theorem point_injective : Function.Injective point := by
  intro i j hij
  have hbyte := congrArg UInt8.toNat (byteField.injective hij)
  have hi : i.val < 16 := i.isLt
  have hj : j.val < 16 := j.isLt
  rw [UInt8.toNat_ofNat', UInt8.toNat_ofNat', Nat.mod_eq_of_lt (by omega),
    Nat.mod_eq_of_lt (by omega)] at hbyte
  exact Fin.ext hbyte

def fieldCode (size : ℕ) : Set (Fin erasureTotalShards → List UInt8) :=
  striped size (renamed byteField (evaluations point erasureDataShards))

theorem fieldCode_mds (size : ℕ) :
    Mds erasureDataShards {s : List UInt8 | s.length = size} (fieldCode size) :=
  ((evaluations_mds point_injective erasureDataShards).renamed byteField).striped size

/-- A word whose data pieces are given. -/
def Encodes (v w : Pieces) : Prop :=
  ∃ size, 0 < size ∧ Even size v ∧ w.get ∈ fieldCode size ∧
    ∀ i, i.val < erasureDataShards → w.get i = v.get i

/-- A word through twelve of the pieces that are there. -/
def Fills (v : Pieces) (c : Fin erasureTotalShards → List UInt8) : Prop :=
  ∃ (size : ℕ) (S : Finset (Fin erasureTotalShards)), EvenWherePresent size v ∧
    S.card = erasureDataShards ∧ (∀ i ∈ S, v.get i ≠ [] ∧ c i = v.get i) ∧ c ∈ fieldCode size

noncomputable def fieldEncode (v : Pieces) : Except Err Pieces :=
  if h : ∃ w, Encodes v w then .ok h.choose else .error (.plain "shard sizes do not match")

noncomputable def fieldReconstruct (v : Pieces) : Except Err Pieces :=
  if h : ∃ c, Fills v c then .ok (filled v h.choose)
  else .error (.plain "too few shards given")

noncomputable def fieldVerify (w : Pieces) : Except Err Bool :=
  if ∃ size, 0 < size ∧ Even size w then .ok (decide (∃ size, w.get ∈ fieldCode size))
  else .error (.plain "shard sizes do not match")

theorem fieldEncode_codeword (size : ℕ) (v : Pieces) (hpos : 0 < size) (heven : Even size v) :
    ∃ w, fieldEncode v = .ok w ∧ w.get ∈ fieldCode size ∧
      ∀ i, i.val < erasureDataShards → w.get i = v.get i := by
  have hex : ∃ w, Encodes v w := by
    have hcard : (Finset.univ.filter fun i : Fin erasureTotalShards =>
        i.val < erasureDataShards).card = erasureDataShards := by decide
    obtain ⟨c, ⟨hc, hagree⟩, -⟩ := (fieldCode_mds size).extends_uniquely _ v.get hcard heven
    have hget : (Vector.ofFn c).get = c := funext (get_ofFn c)
    refine ⟨Vector.ofFn c, size, hpos, heven, hget.symm ▸ hc, fun i hi => ?_⟩
    rw [get_ofFn]
    exact hagree i (Finset.mem_filter.mpr ⟨Finset.mem_univ _, hi⟩)
  obtain ⟨size', -, heven', hcode, hdata⟩ := hex.choose_spec
  obtain rfl : size' = size := heven'.size_eq heven
  exact ⟨hex.choose, dif_pos hex, hcode, hdata⟩

theorem fieldVerify_even (size : ℕ) (w : Pieces) (hpos : 0 < size) (heven : Even size w) :
    ∃ ok, fieldVerify w = .ok ok ∧ (ok = true ↔ w.get ∈ fieldCode size) := by
  refine ⟨_, if_pos ⟨size, hpos, heven⟩, decide_eq_true_iff.trans ⟨?_, fun h => ⟨size, h⟩⟩⟩
  rintro ⟨size', hcode⟩
  obtain rfl : size' = size := Even.size_eq ((fieldCode_mds size').letters _ hcode) heven
  exact hcode

theorem fieldVerify_uneven (w : Pieces) (h : ∀ size, 0 < size → ¬ Even size w) :
    ∃ e, fieldVerify w = .error e :=
  ⟨_, if_neg (by rintro ⟨size, hpos, heven⟩; exact h size hpos heven)⟩

theorem present_eq_card (v : Pieces) :
    present v = (Finset.univ.filter fun i => v.get i ≠ []).card := by
  rw [present, countP_eq_card]
  congr 1
  ext i
  simp

theorem fieldReconstruct_few (v : Pieces) (h : present v < erasureDataShards) :
    ∃ e, fieldReconstruct v = .error e := by
  refine ⟨_, dif_neg ?_⟩
  rintro ⟨c, size, S, -, hS, hc, -⟩
  have hsub : S ⊆ Finset.univ.filter fun i => v.get i ≠ [] := fun i hi =>
    Finset.mem_filter.mpr ⟨Finset.mem_univ i, (hc i hi).1⟩
  have hle := Finset.card_le_card hsub
  rw [← present_eq_card, hS] at hle
  omega

theorem fieldReconstruct_uneven (v : Pieces) (h : ∀ size, ¬ EvenWherePresent size v) :
    ∃ e, fieldReconstruct v = .error e :=
  ⟨_, dif_neg (by rintro ⟨_, size, _, heven, -⟩; exact h size heven)⟩

theorem fieldReconstruct_fills (size : ℕ) (v : Pieces) (heven : EvenWherePresent size v)
    (henough : erasureDataShards ≤ present v) :
    ∃ (S : Finset (Fin erasureTotalShards)) (c : Fin erasureTotalShards → List UInt8),
      S.card = erasureDataShards ∧ (∀ i ∈ S, v.get i ≠ [] ∧ c i = v.get i) ∧
      c ∈ fieldCode size ∧ fieldReconstruct v = .ok (filled v c) := by
  have hex : ∃ c, Fills v c := by
    rw [present_eq_card] at henough
    obtain ⟨S, hsub, hS⟩ := Finset.exists_subset_card_eq henough
    have hthere : ∀ i ∈ S, v.get i ≠ [] := fun i hi => (Finset.mem_filter.mp (hsub hi)).2
    obtain ⟨c, ⟨hc, hagree⟩, -⟩ := (fieldCode_mds size).extends_uniquely S
      (fun i => if v.get i = [] then List.replicate size 0 else v.get i) hS fun i => by
        split_ifs with hi
        · exact List.length_replicate
        · exact heven i hi
    refine ⟨c, size, S, heven, hS, fun i hi => ⟨hthere i hi, ?_⟩, hc⟩
    rw [hagree i hi, if_neg (hthere i hi)]
  obtain ⟨size', S, heven', hS, hagree, hcode⟩ := hex.choose_spec
  obtain ⟨i, hi⟩ : S.Nonempty := Finset.card_pos.mp (hS ▸ by decide)
  obtain rfl : size' = size :=
    (heven' i (hagree i hi).1).symm.trans (heven i (hagree i hi).1)
  exact ⟨S, hex.choose, hS, hagree, hcode, dif_pos hex⟩

noncomputable def fieldLibs : ShardLibs where
  sum256 := toHash
  encSplit data := .ok (evenShards data)
  encEncode := fieldEncode
  signTo _ _ := List.replicate dilithiumSignatureSize 0

noncomputable def fieldCoder : Coder fieldLibs where
  code := fieldCode
  mds := fieldCode_mds
  encReconstruct := fieldReconstruct
  encVerify := fieldVerify
  split_pads _ _ := rfl
  encode_codeword := fieldEncode_codeword
  verify_even := fieldVerify_even
  verify_uneven := fieldVerify_uneven
  reconstruct_few := fieldReconstruct_few
  reconstruct_uneven := fieldReconstruct_uneven
  reconstruct_fills := fieldReconstruct_fills

end Field

section Recovery
variable {w : Pieces} {results : List ShardResult}

theorem mem_pieces {i : Fin erasureTotalShards} {x : List UInt8} :
    (⟨(i.val : ℤ), x⟩ : ShardResult) ∈ numbered w ↔ w.get i = x := by
  rw [mem_numbered]
  constructor
  · rintro ⟨j, hj⟩
    obtain ⟨hij, rfl⟩ := ShardResult.mk.inj hj
    rw [Fin.ext (Int.natCast_inj.mp hij), getElem_eq_get]
  · rintro rfl
    exact ⟨i, rfl⟩

theorem numbered_consistent (w : Pieces) : Consistent (numbered w) where
  range r hr := by
    obtain ⟨i, rfl⟩ := mem_numbered.mp hr
    exact ⟨Int.natCast_nonneg _, Int.ofNat_lt.mpr i.isLt⟩
  same r hr r' hr' heq := by
    obtain ⟨i, rfl⟩ := mem_numbered.mp hr
    obtain ⟨j, rfl⟩ := mem_numbered.mp hr'
    obtain rfl : i = j := Fin.ext (Int.natCast_inj.mp heq)
    rfl

/-- How many indices occur. -/
def covered (results : List ShardResult) : ℕ := (results.map ShardResult.index).toFinset.card

variable {placed : Vector (Option (List UInt8)) erasureTotalShards}

/-- If all shards satisfy a condition, the places that do are the indices that occur. -/
theorem countP_covered (hconsistent : Consistent results) (hplaced : Places results placed)
    {P : Option (List UInt8) → Bool} (hnone : P none = false)
    (hall : ∀ r ∈ results, P (some r.data) = true) :
    placed.toList.countP P = covered results := by
  have himage : (Finset.univ.filter fun i => P (placed.get i) = true).image
      (fun i : Fin erasureTotalShards => (i.val : ℤ)) =
        (results.map ShardResult.index).toFinset := by
    ext k
    simp only [Finset.mem_image, Finset.mem_filter, Finset.mem_univ, true_and,
      List.mem_toFinset, List.mem_map]
    constructor
    · rintro ⟨i, hi, rfl⟩
      cases hget : placed.get i with
      | none => rw [hget, hnone] at hi; cases hi
      | some x => exact ⟨_, (hplaced i x).mp hget, rfl⟩
    · rintro ⟨r, hr, rfl⟩
      obtain ⟨i, hi⟩ := hconsistent.exists_fin hr
      have hget : placed.get i = some r.data := (hplaced i r.data).mpr (hi ▸ hr)
      refine ⟨i, ?_, (congrArg ShardResult.index hi).symm⟩
      rw [hget]
      exact hall r hr
  rw [covered, ← himage, Finset.card_image_of_injective _ fun i j hij =>
    Fin.ext (Int.natCast_inj.mp hij), countP_eq_card]

/-- A place that is not empty holds a shard. -/
theorem mem_of_get_placed (hplaced : Places results placed) {i : Fin erasureTotalShards}
    (h : (placed.map (·.getD [])).get i ≠ []) :
    (⟨(i.val : ℤ), (placed.map (·.getD [])).get i⟩ : ShardResult) ∈ results := by
  rw [← getElem_eq_get, piece_eq] at h ⊢
  cases hget : placed[i] with
  | none => rw [hget] at h; exact absurd rfl h
  | some x => exact (hplaced i x).mp hget

variable {L : ShardLibs} (E : Coder L)

/-- Twelve pieces of a word are decoded to it. -/
theorem decoded_of_pieces (hw : E.encVerify w = .ok true) (hsub : results ⊆ numbered w)
    (hplaced : Places results placed) (henough : erasureDataShards ≤ covered results) :
    E.encReconstruct (placed.map (·.getD [])) = .ok w := by
  have hconsistent := (numbered_consistent w).subset hsub
  refine reconstruct_complete E _ w hw ?_ fun i hi => ?_
  · rw [present, Vector.toList_map, List.countP_map, countP_covered hconsistent hplaced rfl]
    · exact henough
    · intro r hr
      obtain ⟨i, hi⟩ := hconsistent.exists_fin hr
      have hne := verify_present E w hw i
      rw [mem_pieces.mp (hi ▸ hsub hr)] at hne
      simpa using hne
  · exact mem_pieces.mp (hsub (mem_of_get_placed hplaced hi))

theorem erasure_round_trip (data : List UInt8) (hdata : data ≠ []) :
    ∃ shards, split L data = .ok shards ∧ ∀ results ⊆ shards,
      (erasureDataShards ≤ covered results →
        reconstructFromResults E.toDecoder results data.length = .ok data) ∧
      (covered results < erasureDataShards →
        ∃ e, reconstructFromResults E.toDecoder results data.length = .error e) := by
  obtain ⟨w, hw, hbegin, hsplit⟩ := split_returns E hdata
  refine ⟨_, hsplit, fun results hsub => ?_⟩
  have hconsistent := (numbered_consistent w).subset hsub
  obtain ⟨placed, hok, hplaced⟩ := placeResults_places hconsistent
  have havailable : placed.toList.countP Option.isSome = covered results :=
    countP_covered hconsistent hplaced rfl fun _ _ => rfl
  rw [reconstructFromResults, hok]
  constructor
  · intro henough
    apply (reconstruct_ok (List.length_pos_iff.mpr hdata)).mpr
    refine ⟨havailable ▸ henough, w, ?_, hw, ?_⟩
    · exact decoded_of_pieces E hw hsub hplaced henough
    · exact (List.prefix_iff_eq_take.mp hbegin).symm
  · intro hfew
    show ∃ e, reconstruct E.toDecoder placed data.length = .error e
    rw [reconstruct, havailable]
    exact ⟨_, if_pos hfew⟩

/-- One byte comes back from all its shards, each of them twice, and not from none. -/
theorem erasure_round_trip_byte : ∃ shards, split fieldLibs [7] = .ok shards ∧
    reconstructFromResults fieldCoder.toDecoder (shards ++ shards.reverse) 1 = .ok [7] ∧
    ∃ e, reconstructFromResults fieldCoder.toDecoder [] 1 = .error e := by
  obtain ⟨shards, hsplit, hrecovers⟩ := erasure_round_trip fieldCoder [7] (by decide)
  have hall : shards ++ shards.reverse ⊆ shards := by
    intro r hr
    simpa using hr
  have hcovered : covered (shards ++ shards.reverse) = erasureTotalShards := by
    rw [covered, List.map_append, List.map_reverse, split_indices fieldLibs hsplit]
    decide
  refine ⟨shards, hsplit, (hrecovers _ hall).1 ?_, (hrecovers [] (List.nil_subset _)).2 ?_⟩
  · rw [hcovered]
    decide
  · decide

end Recovery

section Corruption
variable {L : ShardLibs} (E : Coder L) {results : List ShardResult}

/-- What is decoded went through the decoder and passed its check. -/
theorem reconstruct_checked {placed : Vector (Option (List UInt8)) erasureTotalShards}
    {originalLen : ℕ} {bytes : List UInt8}
    (h : reconstruct E.toDecoder placed originalLen = .ok bytes) :
    ∃ w, E.encReconstruct (placed.map (·.getD [])) = .ok w ∧ E.encVerify w = .ok true := by
  unfold reconstruct at h
  dsimp only at h
  split_ifs at h
  split at h
  · cases h
  · rename_i w hw
    split at h
    · cases h
    · cases h
    · rename_i hverify
      exact ⟨w, hw, hverify⟩

instance : DecidableEq ShardResult := fun a b =>
  decidable_of_iff (a.index = b.index ∧ a.data = b.data) (by cases a; cases b; simp)

/-- The shards that are not among those that were made. -/
def replaced (shards results : List ShardResult) : List ShardResult :=
  results.filter fun r => decide (r ∉ shards)

/-- Each shard has the length of the one it stands for. -/
def SameLengths (shards results : List ShardResult) : Prop :=
  ∀ r ∈ results, ∃ s ∈ shards, s.index = r.index ∧ s.data.length = r.data.length

theorem mem_replaced {r : ShardResult} {shards : List ShardResult} :
    r ∈ replaced shards results ↔ r ∈ results ∧ r ∉ shards := by
  rw [replaced, List.mem_filter, decide_eq_true_eq]

/-- A word that goes through all shards agrees with the one they were made from wherever
they were not replaced. -/
theorem agree_of_few {w w' : Pieces} (h : Numbered results)
    (hfew : (replaced (numbered w) results).length + erasureDataShards ≤ results.length)
    (hthrough : Through results w') :
    ∃ S : Finset (Fin erasureTotalShards), erasureDataShards ≤ S.card ∧
      ∀ i ∈ S, w'.get i = w.get i := by
  refine ⟨Finset.univ.filter fun i => w'.get i = w.get i, ?_, fun i hi =>
    (Finset.mem_filter.mp hi).2⟩
  have hsplit := List.length_eq_length_filter_add (l := results)
    fun r => decide (r ∉ numbered w)
  have hkept : (results.filter fun r => !decide (r ∉ numbered w)).length ≤
      (Finset.univ.filter fun i => w'.get i = w.get i).card := by
    have hnodup := (List.filter_sublist (p := fun r => !decide (r ∉ numbered w))
      (l := results)).map ShardResult.index |>.nodup h.nodup
    rw [← List.length_map ShardResult.index, ← List.toFinset_card_of_nodup hnodup,
      ← Finset.card_image_of_injective _ fun i j (hij : ((i : Fin erasureTotalShards).val : ℤ) =
        (j.val : ℤ)) => Fin.ext (Int.natCast_inj.mp hij)]
    refine Finset.card_le_card fun k hk => ?_
    obtain ⟨r, hr, rfl⟩ := List.mem_map.mp (List.mem_toFinset.mp hk)
    obtain ⟨hmem, hkeep⟩ := List.mem_filter.mp hr
    obtain ⟨i, hi⟩ := h.consistent.exists_fin hmem
    rw [hi] at hmem hkeep ⊢
    refine Finset.mem_image.mpr ⟨i, Finset.mem_filter.mpr ⟨Finset.mem_univ _, ?_⟩, rfl⟩
    have hpiece : w.get i = r.data := mem_pieces.mp (by simpa using hkeep)
    exact (hthrough i r.data hmem).trans hpiece.symm
  unfold replaced at hfew
  omega

/-- Shards as long as those of a word of the code are not empty. -/
theorem nonempty_of_lengths {w : Pieces} (hw : E.encVerify w = .ok true)
    (hlengths : SameLengths (numbered w) results) : ∀ r ∈ results, r.data ≠ [] := by
  obtain ⟨size, hpos, heven, -⟩ := verified E hw
  intro r hr
  obtain ⟨s, hs, -, hlen⟩ := hlengths _ hr
  obtain ⟨j, rfl⟩ := mem_numbered.mp hs
  rw [← List.length_pos_iff, ← hlen]
  exact (heven j).symm ▸ hpos

/-- Two checked words that agree in twelve places are one word. -/
theorem checked_eq_of_agree {w w' : Pieces} (hw : E.encVerify w = .ok true)
    (hw' : E.encVerify w' = .ok true) {S : Finset (Fin erasureTotalShards)}
    (hS : erasureDataShards ≤ S.card) (hagree : ∀ i ∈ S, w'.get i = w.get i) :
    w'.get = w.get := by
  obtain ⟨size, -, heven, hcode⟩ := verified E hw
  obtain ⟨size', -, heven', hcode'⟩ := verified E hw'
  -- the two words have pieces of one length, since they share a piece
  obtain ⟨i, hi⟩ : S.Nonempty := Finset.card_pos.mp (lt_of_lt_of_le (by decide) hS)
  obtain rfl : size' = size := by rw [← heven' i, hagree i hi, heven i]
  exact (E.mds size').eq_of_agree hcode' hcode hS hagree

theorem corruption_exposed (data : List UInt8) (hdata : data ≠ []) :
    ∃ shards, split L data = .ok shards ∧ ∀ results, Numbered results →
      erasureDataShards + 1 ≤ results.length → SameLengths shards results →
      1 ≤ (replaced shards results).length →
      (replaced shards results).length ≤ results.length - erasureDataShards →
      ∀ originalLen, ∃ e, reconstructFromResults E.toDecoder results originalLen = .error e := by
  obtain ⟨w, hw, -, hsplit⟩ := split_returns E hdata
  refine ⟨_, hsplit, fun results hnumbered hmore hlengths hsome hfew originalLen => ?_⟩
  obtain ⟨placed, hok, hplaced⟩ := placeResults_places hnumbered.consistent
  rw [reconstructFromResults, hok]
  show ∃ e, reconstruct E.toDecoder placed originalLen = .error e
  cases hresult : reconstruct E.toDecoder placed originalLen with
  | error e => exact ⟨e, rfl⟩
  | ok bytes =>
      exfalso
      obtain ⟨w', hdecoded, hw'⟩ := reconstruct_checked E hresult
      have hthrough := through_of_decoded (D := E.toDecoder) hplaced
        (nonempty_of_lengths E hw hlengths) hdecoded
      have hroom : (replaced (numbered w) results).length + erasureDataShards ≤
          results.length := by omega
      obtain ⟨S, hS, hagree⟩ := agree_of_few hnumbered hroom hthrough
      have hsame := checked_eq_of_agree E hw hw' hS hagree
      -- so a shard that was replaced was replaced by itself
      obtain ⟨r, hr⟩ := List.exists_mem_of_length_pos hsome
      obtain ⟨hmem, hforeign⟩ := mem_replaced.mp hr
      obtain ⟨j, hj⟩ := hnumbered.consistent.exists_fin hmem
      refine hforeign ?_
      rw [hj] at hmem ⊢
      exact mem_pieces.mpr ((congrFun hsame j).symm.trans (hthrough j _ hmem))

/-- The shard with index zero, changed. -/
def spoiled (shards : List ShardResult) : List ShardResult :=
  shards.map fun s => if s.index = 0 then ⟨s.index, s.data.map (· + 1)⟩ else s

theorem spoiled_indices (shards : List ShardResult) :
    (spoiled shards).map ShardResult.index = shards.map ShardResult.index := by
  rw [spoiled, List.map_map]
  refine List.map_congr_left fun s _ => ?_
  simp only [Function.comp]
  split_ifs <;> rfl

theorem spoiled_numbered {shards : List ShardResult} (h : Numbered shards) :
    Numbered (spoiled shards) where
  nodup := by
    rw [spoiled_indices]
    exact h.nodup
  range r hr := by
    have hmem := List.mem_map_of_mem (f := ShardResult.index) hr
    rw [spoiled_indices] at hmem
    obtain ⟨s, hs, hindex⟩ := List.mem_map.mp hmem
    rw [← hindex]
    exact h.range s hs

theorem spoiled_lengths (shards : List ShardResult) : SameLengths shards (spoiled shards) := by
  intro r hr
  obtain ⟨s, hs, rfl⟩ := List.mem_map.mp hr
  refine ⟨s, hs, ?_⟩
  split_ifs <;> simp

/-- The changed shard is the only one that is not among the others. -/
theorem spoiled_replaced {shards : List ShardResult} (h : Numbered shards) :
    (replaced shards (spoiled shards)).length ≤ 1 := by
  have hnodup : ((replaced shards (spoiled shards)).map ShardResult.index).Nodup :=
    ((List.filter_sublist.map _).nodup (spoiled_numbered h).nodup)
  have hzero : (replaced shards (spoiled shards)).map ShardResult.index ⊆ [0] := by
    intro k hk
    obtain ⟨r, hr, rfl⟩ := List.mem_map.mp hk
    obtain ⟨hmem, hforeign⟩ := mem_replaced.mp hr
    obtain ⟨s, hs, rfl⟩ := List.mem_map.mp hmem
    split_ifs at hforeign ⊢ with hindex
    · exact List.mem_singleton.mpr hindex
    · exact absurd hs hforeign
  rw [← List.length_map ShardResult.index]
  exact (hnodup.subperm hzero).length_le

theorem spoiled_mem {w : Pieces} {i : Fin erasureTotalShards} (hi : i.val = 0)
    (h : w.get i ≠ []) :
    (⟨(i.val : ℤ), (w.get i).map (· + 1)⟩ : ShardResult) ∈
      replaced (numbered w) (spoiled (numbered w)) := by
  rw [mem_replaced, mem_pieces]
  constructor
  · refine List.mem_map.mpr ⟨_, mem_pieces.mpr rfl, if_pos ?_⟩
    rw [hi]
    rfl
  · intro hsame
    cases hdata : w.get i with
    | nil => exact h hdata
    | cons b bytes =>
        rw [hdata] at hsame
        have hb : b = b + 1 := (List.cons.inj hsame).1
        exact absurd hb (by simp)

theorem corruption_exposed_byte : ∃ shards, split fieldLibs [7] = .ok shards ∧
    ∃ e, reconstructFromResults fieldCoder.toDecoder (spoiled shards) 1 = .error e := by
  obtain ⟨w, hw, -, hsplit⟩ := split_returns fieldCoder (List.cons_ne_nil (7 : UInt8) [])
  obtain ⟨shards, hsplit', hexposed⟩ := corruption_exposed fieldCoder [7] (by decide)
  obtain rfl := Except.ok.inj (hsplit.symm.trans hsplit')
  have hindexed := split_wellIndexed fieldLibs hsplit
  have hnumbered : Numbered (numbered w) := ⟨split_nodup fieldLibs hsplit, hindexed.2⟩
  have hlength : (spoiled (numbered w)).length = 16 := by
    rw [spoiled, List.length_map, hindexed.1]
    rfl
  have honce := spoiled_replaced hnumbered
  refine ⟨_, hsplit, hexposed _ (spoiled_numbered hnumbered) ?_ (spoiled_lengths _) ?_ ?_ 1⟩
  · rw [hlength]
    decide
  · exact List.length_pos_of_mem
      (spoiled_mem (i := ⟨0, by decide⟩) rfl (verify_present fieldCoder w hw _))
  · rw [hlength]
    exact honce.trans (by decide)

end Corruption

end Zytherion.ReedSolomon
