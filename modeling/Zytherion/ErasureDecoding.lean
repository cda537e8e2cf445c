import Zytherion.Shards
import Mathlib.Data.List.FinRange

/-!
# Recovering data from shards

Any twelve of the sixteen shards determine the rest, so that the data can be read off
again. The decoder is a linked library: what it asks of its input and what it returns
is stated in terms of the codewords its own check accepts.

Shards that all belong to one codeword are recovered as that codeword. Whether it is
the codeword of the data that was split is not for the decoder to tell.
-/
namespace Zytherion.ErasureDecoding

open Application Shards

/-- How many pieces are not empty: an empty one counts as missing. -/
def present {n : ℕ} (pieces : Vector (List UInt8) n) : ℕ :=
  pieces.toList.countP fun s => !s.isEmpty

/-- The data shards, joined. -/
def dataOf (pieces : Vector (List UInt8) erasureTotalShards) : List UInt8 :=
  (pieces.toList.take erasureDataShards).flatten

/-- The decoder that goes with the encoder. It fills in what is missing if twelve pieces
are there, it finds a codeword through them if there is one, and there is only one. -/
structure Decoder (L : ShardLibs) where
  encReconstruct : Vector (List UInt8) erasureTotalShards →
    Except Err (Vector (List UInt8) erasureTotalShards)
  encVerify : Vector (List UInt8) erasureTotalShards → Except Err Bool
  verify_present : ∀ w, encVerify w = .ok true → ∀ i : Fin erasureTotalShards, w[i] ≠ []
  reconstruct_agrees : ∀ v w, encReconstruct v = .ok w → erasureDataShards ≤ present v ∧
    ∀ i : Fin erasureTotalShards, v[i] ≠ [] → w[i] = v[i]
  reconstruct_complete : ∀ v w, encVerify w = .ok true → erasureDataShards ≤ present v →
    (∀ i : Fin erasureTotalShards, v[i] ≠ [] → w[i] = v[i]) → encReconstruct v = .ok w
  encode_verifies : ∀ data v w, data ≠ [] → L.encSplit data = .ok v → L.encEncode v = .ok w →
    encVerify w = .ok true ∧ data <+: dataOf w

section Decoding
variable {L : ShardLibs} (D : Decoder L)

/-- Missing shards are nil, which is not the same as empty. -/
def reconstruct (shards : Vector (Option (List UInt8)) erasureTotalShards) (originalLen : ℕ) :
    Except Err (List UInt8) :=
  let available := shards.toList.countP Option.isSome
  if available < erasureDataShards then
    .error (.plain ("erasure: insufficient shards: have " ++ toString available ++
      ", need at least " ++ toString erasureDataShards))
  else
    match D.encReconstruct (shards.map (·.getD [])) with
    | .error e => .error (.wrap "erasure: Reconstruct failed" e)
    | .ok shards =>
        match D.encVerify shards with
        | .error e => .error (.wrap "erasure: Verify failed" e)
        | .ok false => .error (.plain "erasure: reconstructed shards failed integrity check")
        | .ok true =>
            let out := dataOf shards
            .ok (if 0 < originalLen ∧ originalLen ≤ out.length then out.take originalLen else out)

/-- The loop that puts each shard at its index. -/
def placeResults : List ShardResult → Vector (Option (List UInt8)) erasureTotalShards →
    Except Err (Vector (Option (List UInt8)) erasureTotalShards)
  | [], shards => .ok shards
  | r :: results, shards =>
      if r.index < 0 ∨ (erasureTotalShards : ℤ) ≤ r.index then
        .error (.plain ("erasure: invalid shard index " ++ toString r.index))
      else placeResults results (shards.setIfInBounds r.index.toNat (some r.data))

def reconstructFromResults (results : List ShardResult) (originalLen : ℕ) :
    Except Err (List UInt8) := do
  let shards ← placeResults results (Vector.replicate erasureTotalShards none)
  reconstruct D shards originalLen

/-- The pieces pass the decoder's check. -/
def Codeword (w : Vector (List UInt8) erasureTotalShards) : Prop := D.encVerify w = .ok true

end Decoding

/-- The shards are pieces of the codeword. -/
def Through (results : List ShardResult) (w : Vector (List UInt8) erasureTotalShards) : Prop :=
  ∀ (i : Fin erasureTotalShards) (x : List UInt8),
    (⟨(i.val : ℤ), x⟩ : ShardResult) ∈ results → w[i] = x

section Results
variable {results : List ShardResult}

/-- Distinct indices in range. -/
structure Numbered (results : List ShardResult) : Prop where
  nodup : (results.map ShardResult.index).Nodup
  range : ∀ r ∈ results, 0 ≤ r.index ∧ r.index < erasureTotalShards

theorem Numbered.exists_fin (h : Numbered results) {r : ShardResult} (hr : r ∈ results) :
    ∃ i : Fin erasureTotalShards, r.index = (i.val : ℤ) := by
  have hindex := h.range r hr
  exact ⟨⟨r.index.toNat, by omega⟩, by simp only; omega⟩

theorem Numbered.of_sublist {xs ys : List ShardResult} (h : Numbered ys) (hs : xs.Sublist ys) :
    Numbered xs :=
  ⟨(hs.map _).nodup h.nodup, fun r hr => h.range r (hs.subset hr)⟩

/-- Shards that may be repeated, but not with different bytes. -/
structure Consistent (results : List ShardResult) : Prop where
  range : ∀ r ∈ results, 0 ≤ r.index ∧ r.index < erasureTotalShards
  same : ∀ r ∈ results, ∀ r' ∈ results, r.index = r'.index → r = r'

theorem Numbered.consistent (h : Numbered results) : Consistent results :=
  ⟨h.range, fun _ hr _ hr' heq => List.inj_on_of_nodup_map h.nodup hr hr' heq⟩

theorem Consistent.subset {xs ys : List ShardResult} (h : Consistent ys) (hs : xs ⊆ ys) :
    Consistent xs :=
  ⟨fun r hr => h.range r (hs hr), fun r hr r' hr' => h.same r (hs hr) r' (hs hr')⟩

theorem Consistent.exists_fin (h : Consistent results) {r : ShardResult} (hr : r ∈ results) :
    ∃ i : Fin erasureTotalShards, r = ⟨(i.val : ℤ), r.data⟩ := by
  have hindex := h.range r hr
  refine ⟨⟨r.index.toNat, by omega⟩, ?_⟩
  rw [Int.toNat_of_nonneg hindex.1]

/-- What stands where once the shards are placed. -/
theorem placeResults_ok (h : Consistent results)
    (shards : Vector (Option (List UInt8)) erasureTotalShards) :
    ∃ placed, placeResults results shards = .ok placed ∧
      ∀ i : Fin erasureTotalShards, ∀ x, placed[i] = some x ↔
        (⟨(i.val : ℤ), x⟩ : ShardResult) ∈ results ∨
          shards[i] = some x ∧ (i.val : ℤ) ∉ results.map ShardResult.index := by
  induction results generalizing shards with
  | nil => exact ⟨shards, rfl, fun i x => by simp⟩
  | cons r results ih =>
      have hrange := h.range r List.mem_cons_self
      obtain ⟨placed, hplaced, hget⟩ := ih (h.subset (List.subset_cons_self _ _))
        (shards.setIfInBounds r.index.toNat (some r.data))
      refine ⟨placed, ?_, fun i x => ?_⟩
      · rw [placeResults, if_neg (by omega), hplaced]
      · rw [hget, List.mem_cons, List.map_cons, List.mem_cons]
        rcases eq_or_ne r.index i.val with hi | hi
        · have hset : (shards.setIfInBounds r.index.toNat (some r.data))[i] = some r.data := by
            simp [hi]
          have hr : (⟨(i.val : ℤ), x⟩ : ShardResult) = r ↔ r.data = x := by
            cases r
            simp only [ShardResult.mk.injEq]
            exact ⟨fun h => h.2.symm, fun h => ⟨hi.symm, h.symm⟩⟩
          rw [hset]
          simp only [hi, Option.some.injEq, true_or, not_true, and_false, or_false]
          constructor
          · rintro (hmem | ⟨hx, -⟩)
            · exact .inr hmem
            · exact .inl (hr.mpr hx)
          · rintro (heq | hmem)
            · by_cases hlater : (i.val : ℤ) ∈ results.map ShardResult.index
              · -- the shard comes again, with the same bytes
                obtain ⟨r', hr', hindex⟩ := List.mem_map.mp hlater
                have hsame := h.same r List.mem_cons_self r' (List.mem_cons_of_mem r hr')
                  (hi.trans hindex.symm)
                left
                rwa [heq, hsame]
              · exact .inr ⟨hr.mp heq, hlater⟩
            · exact .inl hmem
        · have hset : (shards.setIfInBounds r.index.toNat (some r.data))[i] = shards[i] := by
            rw [Fin.getElem_fin, Vector.getElem_setIfInBounds_ne _ (by omega)]
            rfl
          have hr : (⟨(i.val : ℤ), x⟩ : ShardResult) ≠ r := fun h => hi (h ▸ rfl)
          simp only [hset, hr, hi.symm, false_or]

/-- The shards stand at their indices, and nothing else stands anywhere. -/
def Places (results : List ShardResult)
    (placed : Vector (Option (List UInt8)) erasureTotalShards) : Prop :=
  ∀ (i : Fin erasureTotalShards) (x : List UInt8),
    placed[i] = some x ↔ (⟨(i.val : ℤ), x⟩ : ShardResult) ∈ results

theorem placeResults_places (h : Consistent results) :
    ∃ placed, placeResults results (Vector.replicate erasureTotalShards none) = .ok placed ∧
      Places results placed := by
  obtain ⟨placed, hplaced, hget⟩ := placeResults_ok h (Vector.replicate erasureTotalShards none)
  refine ⟨placed, hplaced, fun i x => ?_⟩
  rw [hget]
  simp

variable {placed : Vector (Option (List UInt8)) erasureTotalShards}

/-- The shards that satisfy a condition are as many as the places that do. -/
theorem countP_placed (h : Numbered results) (hplaced : Places results placed)
    (P : Option (List UInt8) → Bool) (hnone : P none = false) :
    placed.toList.countP P = (results.filter fun r => P (some r.data)).length := by
  have hlist : placed.toList = (List.finRange erasureTotalShards).map fun i => placed[i] := by
    refine List.ext_getElem (by simp) fun i _ _ => by simp
  have hperm : (((List.finRange erasureTotalShards).filter fun i => P placed[i]).map
      fun i => (i.val : ℤ)).Perm
        ((results.filter fun r => P (some r.data)).map ShardResult.index) := by
    refine (List.perm_ext_iff_of_nodup ?_ ?_).mpr fun k => ?_
    · refine ((List.nodup_finRange _).filter _).map fun i j hij => ?_
      exact Fin.ext (Int.natCast_inj.mp hij)
    · exact (List.filter_sublist.map _).nodup h.nodup
    · simp only [List.mem_map, List.mem_filter, List.mem_finRange, true_and]
      constructor
      · rintro ⟨i, hi, rfl⟩
        cases hget : placed[i] with
        | none => rw [hget, hnone] at hi; cases hi
        | some x =>
            rw [hget] at hi
            exact ⟨_, ⟨(hplaced i x).mp hget, hi⟩, rfl⟩
      · rintro ⟨r, ⟨hr, hP⟩, rfl⟩
        obtain ⟨i, hi⟩ := h.exists_fin hr
        have hmem : (⟨(i.val : ℤ), r.data⟩ : ShardResult) ∈ results := by
          rw [← hi]
          exact hr
        refine ⟨i, ?_, hi.symm⟩
        rw [(hplaced i r.data).mpr hmem]
        exact hP
  have hlen := hperm.length_eq
  rw [List.length_map, List.length_map] at hlen
  rw [hlist, List.countP_map, ← hlen, List.countP_eq_length_filter]
  rfl

variable {L : ShardLibs} {D : Decoder L}

theorem trim_eq {originalLen : ℕ} (hlen : 0 < originalLen) (out : List UInt8) :
    (if 0 < originalLen ∧ originalLen ≤ out.length then out.take originalLen else out) =
      out.take originalLen := by
  split_ifs with h
  · rfl
  · rw [List.take_of_length_le (by omega)]

/-- `Reconstruct` returns the beginning of the data of what the decoder makes of the
shards. -/
theorem reconstruct_ok {shards : Vector (Option (List UInt8)) erasureTotalShards}
    {originalLen : ℕ} {bytes : List UInt8} (hlen : 0 < originalLen) :
    reconstruct D shards originalLen = .ok bytes ↔
      erasureDataShards ≤ shards.toList.countP Option.isSome ∧
      ∃ w, D.encReconstruct (shards.map (·.getD [])) = .ok w ∧ Codeword D w ∧
        (dataOf w).take originalLen = bytes := by
  unfold reconstruct Codeword
  dsimp only
  split_ifs with hfew
  · exact iff_of_false nofun fun h => absurd h.1 (not_le.mpr hfew)
  · rw [and_iff_right (not_lt.mp hfew)]
    cases D.encReconstruct (shards.map (·.getD [])) with
    | error e => exact iff_of_false nofun fun ⟨w, h, _⟩ => by cases h
    | ok w =>
        simp only [Except.ok.injEq, exists_eq_left']
        cases D.encVerify w with
        | error e => exact iff_of_false nofun fun h => by cases h.1
        | ok valid =>
            cases valid with
            | false => exact iff_of_false nofun fun h => by cases h.1
            | true =>
                rw [and_iff_right rfl]
                simp only [trim_eq hlen, Except.ok.injEq]

theorem present_placed (h : Numbered results) (hplaced : Places results placed) :
    present (placed.map (·.getD [])) = (results.filter fun r => !r.data.isEmpty).length := by
  rw [present, Vector.toList_map, List.countP_map]
  exact countP_placed h hplaced _ rfl

theorem piece_eq (placed : Vector (Option (List UInt8)) erasureTotalShards)
    (i : Fin erasureTotalShards) : (placed.map (·.getD []))[i] = placed[i].getD [] := by
  rw [Fin.getElem_fin, Vector.getElem_map]
  rfl

/-- The decoder keeps every shard it was given, if none is empty. -/
theorem through_of_decoded (hplaced : Places results placed) (hne : ∀ r ∈ results, r.data ≠ [])
    {w : Vector (List UInt8) erasureTotalShards}
    (hdecoded : D.encReconstruct (placed.map (·.getD [])) = .ok w) : Through results w := by
  intro i x hx
  have hpiece : (placed.map (·.getD []))[i] = x := by
    rw [piece_eq, (hplaced i x).mpr hx]
    rfl
  rw [(D.reconstruct_agrees _ _ hdecoded).2 i (hpiece ▸ hne _ hx), hpiece]

/-- Twelve shards from which something is decoded are not empty. -/
theorem nonempty_of_decoded (h : Numbered results) (hcount : results.length = erasureDataShards)
    (hplaced : Places results placed) {w : Vector (List UInt8) erasureTotalShards}
    (hdecoded : D.encReconstruct (placed.map (·.getD [])) = .ok w) :
    ∀ r ∈ results, r.data ≠ [] := by
  have henough := (D.reconstruct_agrees _ _ hdecoded).1
  rw [present_placed h hplaced, ← hcount] at henough
  have hall := List.filter_sublist.eq_of_length_le henough
  intro r hr
  rw [← hall] at hr
  simpa using (List.mem_filter.mp hr).2

/-- A codeword through twelve shards is what is decoded from them. -/
theorem decoded_of_through (h : Numbered results) (hcount : results.length = erasureDataShards)
    (hplaced : Places results placed) {w : Vector (List UInt8) erasureTotalShards}
    (hcode : Codeword D w) (hthrough : Through results w) :
    D.encReconstruct (placed.map (·.getD [])) = .ok w := by
  have hall : results.filter (fun r => !r.data.isEmpty) = results := by
    refine List.filter_eq_self.mpr fun r hr => ?_
    obtain ⟨i, hi⟩ := h.exists_fin hr
    have hpiece := hthrough i r.data (by rw [← hi]; exact hr)
    have hne := D.verify_present w hcode i
    rw [hpiece] at hne
    simpa using hne
  refine D.reconstruct_complete _ _ hcode ?_ fun i hi => ?_
  · rw [present_placed h hplaced, hall, hcount]
  · rw [piece_eq] at hi ⊢
    cases hget : placed[i] with
    | none => rw [hget] at hi; exact absurd rfl hi
    | some x => exact hthrough i x ((hplaced i x).mp hget)

/-- Twelve shards are decoded exactly if a codeword goes through them, and then to the
beginning of its data. -/
theorem reconstructFromResults_ok (h : Numbered results)
    (hcount : results.length = erasureDataShards) {originalLen : ℕ} (hlen : 0 < originalLen)
    {bytes : List UInt8} :
    reconstructFromResults D results originalLen = .ok bytes ↔
      ∃ w, Codeword D w ∧ Through results w ∧ (dataOf w).take originalLen = bytes := by
  obtain ⟨placed, hok, hplaced⟩ := placeResults_places h.consistent
  have havailable : placed.toList.countP Option.isSome = erasureDataShards := by
    rw [countP_placed h hplaced _ rfl, ← hcount]
    simp
  rw [reconstructFromResults, hok]
  refine (reconstruct_ok hlen).trans ?_
  rw [havailable, and_iff_right le_rfl]
  refine exists_congr fun w => ?_
  constructor
  · rintro ⟨hdecoded, hcode, hbytes⟩
    have hne := nonempty_of_decoded h hcount hplaced hdecoded
    exact ⟨hcode, through_of_decoded hplaced hne hdecoded, hbytes⟩
  · rintro ⟨hcode, hthrough, hbytes⟩
    exact ⟨decoded_of_through h hcount hplaced hcode hthrough, hcode, hbytes⟩

/-- There is only one codeword through twelve shards. -/
theorem codeword_unique (h : Numbered results) (hcount : results.length = erasureDataShards)
    {w w' : Vector (List UInt8) erasureTotalShards} (hw : Codeword D w) (hw' : Codeword D w')
    (hthrough : Through results w) (hthrough' : Through results w') : w = w' := by
  obtain ⟨placed, -, hplaced⟩ := placeResults_places h.consistent
  exact Except.ok.inj ((decoded_of_through h hcount hplaced hw hthrough).symm.trans
    (decoded_of_through h hcount hplaced hw' hthrough'))

/-- The shards of some data belong to a codeword whose data begin with it. -/
theorem split_codeword {data : List UInt8} {shards : List ShardResult}
    (h : split L data = .ok shards) :
    ∃ w, Codeword D w ∧ data <+: dataOf w ∧ Through shards w := by
  unfold split at h
  split_ifs at h with hempty
  split at h
  · cases h
  · rename_i v hv
    split at h
    · cases h
    · rename_i w hw
      obtain rfl := Except.ok.inj h
      have hne : data ≠ [] := by rwa [List.isEmpty_iff] at hempty
      obtain ⟨hcode, hbegin⟩ := D.encode_verifies data v w hne hv hw
      refine ⟨w, hcode, hbegin, fun i x hx => ?_⟩
      obtain ⟨j, hj⟩ := mem_numbered.mp hx
      obtain ⟨hij, rfl⟩ := ShardResult.mk.inj hj
      rw [Fin.ext (Int.natCast_inj.mp hij)]

end Results

end Zytherion.ErasureDecoding
