import Zytherion.AdaptiveCommit
import Zytherion.BinaryRounding
import Zytherion.CircularBuffer

/-!
# The timeout and the last ten blocks

The manager's average is a quotient of two floats: the sum of the counts, added up in 64
bits, and their number. Rounding does not take a quotient across the threshold as long as
the sum is exact, so that the comparison is one of integers, and the manager the one of
`AdaptiveCommit`, whose average is a fraction.

The counts are kept in a circular buffer, and a history of counts leaves its last ten.
-/
namespace Zytherion.TimeoutWindow

open GoCall KeyedStore ByteStrings AdaptiveCommit BinaryRounding CircularBuffer

/-- Rounded to a `float64`. All numbers here are far from its largest and smallest. -/
def float64 (x : ℚ) : ℚ := roundTo 53 x

/-- `getPersistedTimeout`: what is stored, unless it is too short. -/
def getPersistedTimeout (store : KVStore) : ℤ :=
  match store.get adaptiveTimeoutKey with
  | none => defaultCommitTimeout
  | some bz =>
      if bz.length < 8 then defaultCommitTimeout
      else (Int64.ofNat (bigEndianValue (bz.take 8))).toInt

namespace Manager
variable (m : AdaptiveTimeoutManager)

def size : ℕ := if m.filled then rollingWindow else m.head.val

/-- The loop over the counts. -/
def sum : Int64 := (m.txCounts.toList.take (size m)).foldl (fun sum c => sum + Int64.ofNat c) 0

def rollingAvg : ℚ :=
  if size m = 0 then 0 else float64 (float64 (sum m).toInt / float64 (size m))

def suggestedCommitTimeout : ℕ :=
  if rollingAvg m < lowTxThreshold then idleCommitTimeout else defaultCommitTimeout

def recordBlockLoad (store : KVStore) (txCount : ℕ) : KVStore × AdaptiveTimeoutManager :=
  let m := m.pushCount txCount
  (store.set adaptiveTimeoutKey (bigEndian 8 (suggestedCommitTimeout m)), m)

end Manager

/-- The counts of consecutive blocks. -/
def recordLoads (store : KVStore) (m : AdaptiveTimeoutManager) (counts : List ℕ) :
    KVStore × AdaptiveTimeoutManager :=
  run (fun s txCount => Manager.recordBlockLoad s.2 s.1 txCount) (store, m) counts

/-! The comparison. -/

section Average
variable {m : AdaptiveTimeoutManager}

/-- The counts that enter the average. -/
def window (m : AdaptiveTimeoutManager) : List ℕ := m.txCounts.toList.take (Manager.size m)

theorem foldl_ofNat (counts : List ℕ) (acc : ℕ) :
    counts.foldl (fun sum c => sum + Int64.ofNat c) (Int64.ofNat acc) =
      Int64.ofNat (acc + counts.sum) := by
  induction counts generalizing acc with
  | nil => rfl
  | cons c counts ih =>
      rw [List.foldl_cons, ← Int64.ofNat_add, ih, List.sum_cons, add_assoc]

theorem sum_toInt (h : (window m).sum < 2 ^ 63) : (Manager.sum m).toInt = (window m).sum := by
  have hsum : Manager.sum m = Int64.ofNat (0 + (window m).sum) := foldl_ofNat (window m) 0
  rw [hsum, zero_add, Int64.toInt_ofNat_of_lt h]

theorem size_le (m : AdaptiveTimeoutManager) : Manager.size m ≤ rollingWindow := by
  unfold Manager.size
  split_ifs
  · exact le_refl _
  · exact m.head.isLt.le

/-- The rounded average is below the threshold exactly if the exact one is. -/
theorem rollingAvg_lt_iff (hsize : Manager.size m ≠ 0) (hsum : (window m).sum < 2 ^ 53) :
    Manager.rollingAvg m < lowTxThreshold ↔ (window m).sum < 5 * Manager.size m := by
  have hle : Manager.size m ≤ 10 := size_le m
  have hint : (((Manager.sum m).toInt : ℤ) : ℚ) = ((window m).sum : ℕ) := by
    rw [sum_toInt (hsum.trans (by norm_num)), Int.cast_natCast]
  have hfive : lowTxThreshold = ((5 : ℕ) : ℚ) := by norm_num [lowTxThreshold]
  rw [Manager.rollingAvg, if_neg hsize, hint, float64, float64, float64, roundTo_natCast hsum,
    roundTo_natCast (by omega), hfive]
  exact roundTo_div_lt_iff (Nat.pos_of_ne_zero hsize) (by omega)

theorem suggested_idle_iff (hsize : Manager.size m ≠ 0) (hsum : (window m).sum < 2 ^ 53) :
    Manager.suggestedCommitTimeout m = idleCommitTimeout ↔
      (window m).sum < 5 * Manager.size m := by
  rw [← rollingAvg_lt_iff hsize hsum, Manager.suggestedCommitTimeout]
  split_ifs with h
  · exact iff_of_true rfl h
  · exact iff_of_false (by decide) h

theorem exactAvg_lt_iff (hsize : Manager.size m ≠ 0) :
    m.rollingAvg < lowTxThreshold ↔ (window m).sum < 5 * Manager.size m := by
  have hpos : (0 : ℚ) < Manager.size m := by exact_mod_cast Nat.pos_of_ne_zero hsize
  have havg : m.rollingAvg = (window m).sum / Manager.size m := if_neg hsize
  rw [havg, lowTxThreshold, div_lt_iff₀ hpos]
  exact_mod_cast Iff.rfl

/-- With an exact sum the manager is the one whose average is a fraction. -/
theorem recordBlockLoad_eq (m : AdaptiveTimeoutManager) (store : KVStore) (txCount : ℕ)
    (hsum : (window (m.pushCount txCount)).sum < 2 ^ 53) :
    Manager.recordBlockLoad m store txCount = m.recordBlockLoad store txCount := by
  have hsuggested : Manager.suggestedCommitTimeout (m.pushCount txCount) =
      (m.pushCount txCount).suggestedCommitTimeout := by
    by_cases hsize : Manager.size (m.pushCount txCount) = 0
    · have hfloat : Manager.rollingAvg (m.pushCount txCount) = 0 := if_pos hsize
      have hexact : (m.pushCount txCount).rollingAvg = 0 := if_pos hsize
      rw [Manager.suggestedCommitTimeout, AdaptiveTimeoutManager.suggestedCommitTimeout, hfloat,
        hexact]
    · simp only [Manager.suggestedCommitTimeout, AdaptiveTimeoutManager.suggestedCommitTimeout,
        rollingAvg_lt_iff hsize hsum, exactAvg_lt_iff hsize]
  rw [Manager.recordBlockLoad, hsuggested]
  rfl

end Average

/-! The history. -/

section History
variable {counts : List ℕ}

def ringOf (m : AdaptiveTimeoutManager) : Circular ℕ rollingWindow := ⟨m.txCounts, m.head, m.filled⟩

/-- The manager's ring is the buffer that the counts were written to. -/
theorem ringOf_recordLoads (store : KVStore) (counts : List ℕ) :
    ringOf (recordLoads store .new counts).2 =
      counts.foldl Circular.push (Circular.new (Vector.replicate rollingWindow 0) (by decide)) := by
  induction counts using List.reverseRecOn with
  | nil => rfl
  | append_singleton counts c ih =>
      rw [List.foldl_append, ← ih, recordLoads, run_snoc]
      rfl

theorem size_recordLoads (store : KVStore) (counts : List ℕ) :
    Manager.size (recordLoads store .new counts).2 = min counts.length 10 := by
  have hsize := Circular.size_eq (Vector.replicate rollingWindow 0) (by decide) counts
  rw [← ringOf_recordLoads store counts] at hsize
  exact hsize

theorem sum_recordLoads (store : KVStore) (counts : List ℕ) :
    (window (recordLoads store .new counts).2).sum = (Circular.last 10 counts).sum := by
  have hperm := Circular.contents_perm (Vector.replicate rollingWindow 0) (by decide) counts
  rw [← ringOf_recordLoads store counts] at hperm
  exact hperm.sum_eq

theorem suggested_lt (m : AdaptiveTimeoutManager) : Manager.suggestedCommitTimeout m < 2 ^ 63 := by
  unfold Manager.suggestedCommitTimeout
  split_ifs <;> decide

/-- What is persisted is read back. -/
theorem getPersistedTimeout_set (store : KVStore) {timeout : ℕ} (h : timeout < 2 ^ 63) :
    getPersistedTimeout (store.set adaptiveTimeoutKey (bigEndian 8 timeout)) = timeout := by
  have hlength : ¬ (bigEndian 8 timeout).length < 8 := by rw [bigEndian_length]; decide
  have hall : (bigEndian 8 timeout).take 8 = bigEndian 8 timeout :=
    List.take_of_length_le (bigEndian_length 8 timeout).le
  have hvalue : bigEndianValue (bigEndian 8 timeout) = timeout :=
    bigEndianValue_bigEndian (h.trans (by decide))
  simp only [getPersistedTimeout, Store.get_set_self]
  rw [if_neg hlength, hall, hvalue, Int64.toInt_ofNat_of_lt h]

theorem persisted_recordLoads (store : KVStore) (hne : counts ≠ []) :
    getPersistedTimeout (recordLoads store .new counts).1 =
      Manager.suggestedCommitTimeout (recordLoads store .new counts).2 := by
  obtain ⟨counts, c, rfl⟩ := (List.eq_nil_or_concat' counts).resolve_left hne
  rw [recordLoads, run_snoc]
  exact getPersistedTimeout_set _ (suggested_lt _)

/-- After some blocks the suggested timeout is the one that is persisted, and the idle one
exactly if the last ten blocks, or all of them, had fewer than five transactions each on
average. -/
theorem timeout_follows_last_ten (store : KVStore) (counts : List ℕ) (hne : counts ≠ [])
    (hsum : (counts.drop (counts.length - 10)).sum < 2 ^ 53) :
    (Manager.suggestedCommitTimeout (recordLoads store .new counts).2 : ℤ) =
        getPersistedTimeout (recordLoads store .new counts).1 ∧
      (Manager.suggestedCommitTimeout (recordLoads store .new counts).2 = idleCommitTimeout ↔
        (counts.drop (counts.length - 10)).sum < 5 * min counts.length 10) := by
  have hsize := size_recordLoads store counts
  have hwindow := sum_recordLoads store counts
  have hpos : 0 < counts.length := List.length_pos_of_ne_nil hne
  refine ⟨(persisted_recordLoads store hne).symm, ?_⟩
  rw [suggested_idle_iff (by omega) (hwindow ▸ hsum), hsize, hwindow]
  rfl

/-- Twelve blocks, the first two of which are forgotten. -/
def twelveCounts : List ℕ := [90, 80, 4, 5, 6, 4, 5, 6, 4, 5, 6, 4]

theorem twelve_blocks_idle :
    (Manager.suggestedCommitTimeout (recordLoads ∅ .new twelveCounts).2 : ℤ) =
        getPersistedTimeout (recordLoads ∅ .new twelveCounts).1 ∧
      Manager.suggestedCommitTimeout (recordLoads ∅ .new twelveCounts).2 = idleCommitTimeout := by
  have hwindow := timeout_follows_last_ten ∅ twelveCounts (by decide) (by decide)
  exact ⟨hwindow.1, hwindow.2.mpr (by decide)⟩

end History

end Zytherion.TimeoutWindow
