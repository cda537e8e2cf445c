import Zytherion.ByteStrings
import Mathlib.Data.Rat.Defs
import Mathlib.Tactic.Linarith
import Mathlib.Tactic.NormNum

/-!
# Signing latencies

At the beginning of a block every vote of the last commit is looked at, and the
votes of validators that missed the block are recorded as latencies of two
seconds, in a moving average kept for each validator. A signed vote is never
recorded, so an average that has once left zero stays at two seconds.

Averages are exact rationals here; the source keeps 64-bit floats.
-/
namespace Zytherion.SigningLatency

open GoCall KeyedStore ByteStrings

section Average

/-- The exponential moving average of a sequence, seeded with its first number. -/
def movingAverage (α : ℚ) : List ℚ → ℚ
  | [] => 0
  | x :: xs => xs.foldl (fun avg y => α * y + (1 - α) * avg) x

variable {α c : ℚ} {xs : List ℚ}

theorem movingAverage_snoc (h : xs ≠ []) (y : ℚ) :
    movingAverage α (xs ++ [y]) = α * y + (1 - α) * movingAverage α xs := by
  cases xs with
  | nil => exact (h rfl).elim
  | cons x xs => simp only [movingAverage, List.cons_append, List.foldl_append, List.foldl_cons,
      List.foldl_nil]

/-- An average of numbers up to `c` reaches `c` only if each of them does. -/
theorem movingAverage_le (h₀ : 0 < α) (h₁ : α < 1) (hne : xs ≠ []) (hle : ∀ x ∈ xs, x ≤ c) :
    movingAverage α xs ≤ c ∧ (movingAverage α xs = c ↔ ∀ x ∈ xs, x = c) := by
  induction xs using List.reverseRecOn with
  | nil => exact (hne rfl).elim
  | append_singleton xs y ih =>
      obtain ⟨hxs, hy⟩ := List.forall_mem_append.mp hle
      have hyc : y ≤ c := hy y List.mem_cons_self
      simp only [List.forall_mem_append, List.forall_mem_singleton]
      by_cases hnil : xs = []
      · subst hnil
        simp [movingAverage, hyc]
      · obtain ⟨havg, hiff⟩ := ih hnil hxs
        rw [movingAverage_snoc hnil, ← hiff]
        have hnew : α * y ≤ α * c := mul_le_mul_of_nonneg_left hyc h₀.le
        have hold : (1 - α) * movingAverage α xs ≤ (1 - α) * c :=
          mul_le_mul_of_nonneg_left havg (by linarith)
        refine ⟨by linarith, ?_, ?_⟩
        · intro heq
          have h₂ : (1 - α) * movingAverage α xs = (1 - α) * c := by linarith
          have h₃ : α * y = α * c := by linarith
          exact ⟨mul_left_cancel₀ (by linarith) h₂, mul_left_cancel₀ h₀.ne' h₃⟩
        · rintro ⟨hold', hnew'⟩
          rw [hold', hnew']
          ring

theorem movingAverage_neg (xs : List ℚ) :
    movingAverage α (xs.map Neg.neg) = -movingAverage α xs := by
  induction xs using List.reverseRecOn with
  | nil => simp [movingAverage]
  | append_singleton xs y ih =>
      by_cases hnil : xs = []
      · subst hnil
        rfl
      · rw [List.map_append, List.map_singleton, movingAverage_snoc (by simpa using hnil), ih,
          movingAverage_snoc hnil]
        ring

theorem le_movingAverage (h₀ : 0 < α) (h₁ : α < 1) (hne : xs ≠ []) (hle : ∀ x ∈ xs, c ≤ x) :
    c ≤ movingAverage α xs ∧ (movingAverage α xs = c ↔ ∀ x ∈ xs, x = c) := by
  have hle' : ∀ x ∈ xs.map Neg.neg, x ≤ -c :=
    List.forall_mem_map.mpr fun x hx => neg_le_neg (hle x hx)
  have hneg := movingAverage_le h₀ h₁ (by simpa using hne) hle'
  simpa only [movingAverage_neg, List.forall_mem_map, neg_le_neg_iff, neg_inj] using hneg

end Average

/-- A vote of the last commit. -/
structure VoteInfo where
  address : List UInt8
  signedLastBlock : Bool
deriving DecidableEq

/-- What is stored under each key. -/
abbrev Latencies : Type := Store (List UInt8) ℚ

def validatorLatencyKeyPrefix : String := "greenbft/latency/"

def maxLatencyMs : ℚ := 2000

def emaAlpha : ℚ := 1 / 5

def validatorLatencyKey (consAddr : List UInt8) : List UInt8 :=
  utf8 validatorLatencyKeyPrefix ++ consAddr

/-- Zero if nothing is stored. -/
def getStoredLatencyMs (s : Latencies) (consAddr : List UInt8) : ℚ :=
  (s.get (validatorLatencyKey consAddr)).getD 0

def setStoredLatencyMs (s : Latencies) (consAddr : List UInt8) (latencyMs : ℚ) : Latencies :=
  s.set (validatorLatencyKey consAddr) latencyMs

def recordValidatorLatency (s : Latencies) (consAddr : List UInt8) (latencyMs : ℤ) : Latencies :=
  let current := getStoredLatencyMs s consAddr
  let updated : ℚ :=
    if current = 0 then latencyMs else emaAlpha * latencyMs + (1 - emaAlpha) * current
  setStoredLatencyMs s consAddr updated

def getValidatorP2PScore (s : Latencies) (consAddr : List UInt8) : ℚ :=
  let avg := getStoredLatencyMs s consAddr
  if avg ≤ 0 then 1
  else
    let ratio := avg / maxLatencyMs
    1 - if 1 < ratio then 1 else ratio

/-- The body of the loop over the votes. -/
def recordVote (s : Latencies) (vote : VoteInfo) : Latencies :=
  let latencyMs : ℤ := if !vote.signedLastBlock then 2000 else 0
  if 0 < latencyMs ∨ !vote.signedLastBlock then recordValidatorLatency s vote.address latencyMs
  else s

def beginBlocker (s : Latencies) (votes : List VoteInfo) : Latencies := run recordVote s votes

/-- The votes of a validator over a sequence of blocks. -/
def votesOf (consAddr : List UInt8) (blocks : List (List VoteInfo)) : List VoteInfo :=
  blocks.flatten.filter fun vote => vote.address = consAddr

/-- What a vote counts as a latency. -/
def observedMs (vote : VoteInfo) : ℚ := if vote.signedLastBlock then 0 else maxLatencyMs

/-- The average of all votes of a validator. -/
def averageMs (consAddr : List UInt8) (blocks : List (List VoteInfo)) : ℚ :=
  movingAverage emaAlpha ((votesOf consAddr blocks).map observedMs)

/-- The stored latencies after a sequence of blocks. -/
def latencies (blocks : List (List VoteInfo)) : Latencies := run beginBlocker ∅ blocks

/-- After every block the stored latency of a validator is the average of its votes,
and each block it signs brings a positive one down. -/
structure TracksVotes (consAddr : List UInt8) (blocks : List (List VoteInfo)) : Prop where
  average : ∀ pre, pre <+: blocks →
    getStoredLatencyMs (latencies pre) consAddr = averageMs consAddr pre
  recovers : ∀ pre votes, pre ++ [votes] <+: blocks → ⟨consAddr, true⟩ ∈ votes →
    0 < getStoredLatencyMs (latencies pre) consAddr →
      getStoredLatencyMs (latencies (pre ++ [votes])) consAddr <
        getStoredLatencyMs (latencies pre) consAddr

section Stored
variable {consAddr : List UInt8} {s : Latencies} {vote : VoteInfo}

theorem getStoredLatencyMs_set (s : Latencies) (a b : List UInt8) (x : ℚ) :
    getStoredLatencyMs (setStoredLatencyMs s a x) b =
      if b = a then x else getStoredLatencyMs s b := by
  unfold getStoredLatencyMs setStoredLatencyMs
  rw [Store.get_set]
  by_cases h : b = a
  · rw [h, if_pos rfl, if_pos rfl, Option.getD_some]
  · rw [if_neg h, if_neg]
    intro hkey
    exact h (List.append_cancel_left hkey)

/-- Signing leaves everything as it is. -/
theorem recordVote_signed (h : vote.signedLastBlock = true) : recordVote s vote = s := by
  simp [recordVote, h]

theorem recordVote_missed (h : vote.signedLastBlock = false) :
    recordVote s vote = recordValidatorLatency s vote.address 2000 := by
  simp [recordVote, h]

/-- Two seconds averaged with nothing or with two seconds. -/
theorem recordValidatorLatency_max {a : List UInt8}
    (h : getStoredLatencyMs s a = 0 ∨ getStoredLatencyMs s a = maxLatencyMs) :
    recordValidatorLatency s a 2000 = setStoredLatencyMs s a maxLatencyMs := by
  simp only [recordValidatorLatency]
  rcases h with h | h
  · rw [h, if_pos rfl]
    rfl
  · rw [h, if_neg (by norm_num [maxLatencyMs])]
    congr 1
    norm_num [maxLatencyMs, emaAlpha]

theorem latencies_eq (blocks : List (List VoteInfo)) :
    latencies blocks = run recordVote ∅ blocks.flatten := by
  unfold latencies run beginBlocker
  exact (List.foldl_flatten ..).symm

/-- A validator that missed a block is at the maximum, and any other at zero. -/
theorem stored_eq (blocks : List (List VoteInfo)) (consAddr : List UInt8) :
    getStoredLatencyMs (latencies blocks) consAddr =
      if ⟨consAddr, false⟩ ∈ blocks.flatten then maxLatencyMs else 0 := by
  rw [latencies_eq]
  induction blocks.flatten using List.reverseRecOn generalizing consAddr with
  | nil => rfl
  | append_singleton votes vote ih =>
      obtain ⟨a, signed⟩ := vote
      rw [run_snoc]
      cases signed with
      | true =>
          rw [recordVote_signed rfl, ih]
          simp
      | false =>
          have hold : getStoredLatencyMs (run recordVote ∅ votes) a = 0 ∨
              getStoredLatencyMs (run recordVote ∅ votes) a = maxLatencyMs := by
            rw [ih]
            split_ifs
            · exact .inr rfl
            · exact .inl rfl
          rw [recordVote_missed rfl, recordValidatorLatency_max hold, getStoredLatencyMs_set, ih]
          by_cases h : consAddr = a
          · simp [h]
          · simp [h]

theorem mem_votesOf {blocks : List (List VoteInfo)} {signed : Bool} :
    ⟨consAddr, signed⟩ ∈ votesOf consAddr blocks ↔ ⟨consAddr, signed⟩ ∈ blocks.flatten := by
  simp [votesOf]

/-- Whoever missed one block is scored as if it had missed all of them. -/
theorem score_eq (blocks : List (List VoteInfo)) (consAddr : List UInt8) :
    getValidatorP2PScore (latencies blocks) consAddr =
      if ⟨consAddr, false⟩ ∈ blocks.flatten then 0 else 1 := by
  rw [getValidatorP2PScore, stored_eq]
  split_ifs <;> norm_num [maxLatencyMs] at *

/-- The votes of a validator are all signed or all missed. -/
def Uniform (votes : List VoteInfo) : Prop :=
  ∀ v ∈ votes, ∀ w ∈ votes, v.signedLastBlock = w.signedLastBlock

theorem observedMs_eq_zero : observedMs vote = 0 ↔ vote.signedLastBlock = true := by
  unfold observedMs
  cases vote.signedLastBlock <;> norm_num [maxLatencyMs]

theorem observedMs_eq_max : observedMs vote = maxLatencyMs ↔ vote.signedLastBlock = false := by
  unfold observedMs
  cases vote.signedLastBlock <;> norm_num [maxLatencyMs]

theorem observedMs_bounds (vote : VoteInfo) :
    0 ≤ observedMs vote ∧ observedMs vote ≤ maxLatencyMs := by
  unfold observedMs
  cases vote.signedLastBlock <;> norm_num [maxLatencyMs]

variable {blocks : List (List VoteInfo)}

/-- The average is at an end of its range exactly if all votes are. -/
theorem averageMs_eq_iff (h : votesOf consAddr blocks ≠ []) :
    (averageMs consAddr blocks = 0 ↔ ∀ v ∈ votesOf consAddr blocks, v.signedLastBlock = true) ∧
    (averageMs consAddr blocks = maxLatencyMs ↔
      ∀ v ∈ votesOf consAddr blocks, v.signedLastBlock = false) := by
  have hα₀ : 0 < emaAlpha := by norm_num [emaAlpha]
  have hα₁ : emaAlpha < 1 := by norm_num [emaAlpha]
  have hne : (votesOf consAddr blocks).map observedMs ≠ [] := by simpa using h
  have hlow := le_movingAverage (c := 0) hα₀ hα₁ hne
    (List.forall_mem_map.mpr fun v _ => (observedMs_bounds v).1)
  have hhigh := movingAverage_le (c := maxLatencyMs) hα₀ hα₁ hne
    (List.forall_mem_map.mpr fun v _ => (observedMs_bounds v).2)
  simp only [List.forall_mem_map, observedMs_eq_zero, observedMs_eq_max] at hlow hhigh
  exact ⟨hlow.2, hhigh.2⟩

theorem votesOf_address {v : VoteInfo} (h : v ∈ votesOf consAddr blocks) :
    v = ⟨consAddr, v.signedLastBlock⟩ := by
  obtain ⟨-, ha⟩ := List.mem_filter.mp h
  rw [← of_decide_eq_true ha]

/-- The stored latency is the average of the votes exactly if they are uniform. -/
theorem stored_eq_average_iff (consAddr : List UInt8) (blocks : List (List VoteInfo)) :
    getStoredLatencyMs (latencies blocks) consAddr = averageMs consAddr blocks ↔
      Uniform (votesOf consAddr blocks) := by
  rw [stored_eq]
  simp only [← mem_votesOf]
  by_cases hnil : votesOf consAddr blocks = []
  · simp [hnil, averageMs, movingAverage, Uniform]
  · obtain ⟨hzero, hmax⟩ := averageMs_eq_iff hnil
    split_ifs with hmissed
    · rw [eq_comm, hmax]
      constructor
      · intro h v hv w hw
        rw [h v hv, h w hw]
      · intro h v hv
        exact h v hv _ hmissed
    · rw [eq_comm, hzero]
      constructor
      · intro h v hv w hw
        rw [h v hv, h w hw]
      · intro _ v hv
        rw [← Bool.not_eq_false]
        intro hfalse
        exact hmissed (hfalse ▸ votesOf_address hv ▸ hv)

theorem votesOf_subset {pre : List (List VoteInfo)} (h : pre <+: blocks) :
    votesOf consAddr pre ⊆ votesOf consAddr blocks := by
  obtain ⟨post, rfl⟩ := h
  simp [votesOf]

/-- A validator's stored latency follows its votes exactly if it signed every block
or missed every block. -/
theorem tracks_votes_iff (consAddr : List UInt8) (blocks : List (List VoteInfo)) :
    TracksVotes consAddr blocks ↔ Uniform (votesOf consAddr blocks) := by
  constructor
  · intro h
    exact (stored_eq_average_iff consAddr blocks).mp (h.average blocks List.prefix_rfl)
  · intro h
    constructor
    · intro pre hpre
      have hsub : votesOf consAddr pre ⊆ votesOf consAddr blocks := votesOf_subset hpre
      exact (stored_eq_average_iff consAddr pre).mpr fun v hv w hw => h v (hsub hv) w (hsub hw)
    · intro pre votes hpre hsigned hpos
      -- a positive latency comes from a missed block, so no block was signed
      rw [stored_eq] at hpos
      split_ifs at hpos with hmissed
      · have hbefore : ⟨consAddr, false⟩ ∈ votesOf consAddr blocks :=
          votesOf_subset ((List.prefix_append pre [votes]).trans hpre) (mem_votesOf.mpr hmissed)
        have hafter : ⟨consAddr, true⟩ ∈ votesOf consAddr blocks :=
          votesOf_subset hpre (mem_votesOf.mpr (by simp [hsigned]))
        exact absurd (h _ hbefore _ hafter) Bool.false_ne_true
      · exact absurd hpos (lt_irrefl 0)

/-- One missed block, and signed ones from then on: the average goes down, the
stored latency never does. -/
theorem one_missed_block :
    ¬TracksVotes [1] [[⟨[1], false⟩], [⟨[1], true⟩]] ∧
      averageMs [1] [[⟨[1], false⟩], [⟨[1], true⟩]] = 1600 ∧
      ∀ n, getStoredLatencyMs (latencies ([⟨[1], false⟩] :: List.replicate n [⟨[1], true⟩])) [1] =
        2000 := by
  refine ⟨?_, ?_, ?_⟩
  · intro h
    have huniform := (stored_eq_average_iff _ _).mp (h.average _ List.prefix_rfl)
    exact absurd (huniform ⟨[1], false⟩ (by decide) ⟨[1], true⟩ (by decide)) Bool.false_ne_true
  · norm_num [averageMs, votesOf, movingAverage, observedMs, maxLatencyMs, emaAlpha]
  · intro n
    rw [stored_eq, if_pos (by simp)]
    rfl

end Stored
end Zytherion.SigningLatency
