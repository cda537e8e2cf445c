import Zytherion.KeyedStore
import Mathlib.Data.List.Sort

/-!
# Stores restored from a list

Values are written back one after the other, each under the key computed from it
and not at all where there is none. A later value replaces an earlier one of the
same key. The total over the restored store is therefore at most the sum over the
list, and equals it exactly when whatever was left out or replaced weighed nothing.
Where the values of a store determine their keys, the store is restored from them,
in whatever order they are listed.
-/
namespace Zytherion.KeyedStore.Store

variable {K V : Type} [DecidableEq K] (key : V → Option K)

def write (s : Store K V) (v : V) : Store K V := (key v).elim s fun k => s.set k v

def restore (s : Store K V) (vs : List V) : Store K V := vs.foldl (write key) s

@[simp] theorem restore_nil (s : Store K V) : restore key s [] = s := rfl

@[simp] theorem restore_cons (s : Store K V) (v : V) (vs : List V) :
    restore key s (v :: vs) = restore key (write key s v) vs := rfl

section Reads
variable {s : Store K V} {vs : List V}

/-- Values that a table has under their keys are read back from the table. -/
theorem get_restore {table : K → Option V} (h : ∀ v ∈ vs, ∀ k, key v = some k → table k = some v)
    (l : K) : (restore key s vs).get l =
      if ∃ v ∈ vs, key v = some l then table l else s.get l := by
  induction vs generalizing s with
  | nil => simp
  | cons v vs ih =>
      rw [restore_cons, ih fun u hu => h u (List.mem_cons_of_mem v hu)]
      by_cases hrest : ∃ u ∈ vs, key u = some l
      · obtain ⟨u, hu, hl⟩ := hrest
        rw [if_pos ⟨u, hu, hl⟩, if_pos ⟨u, List.mem_cons_of_mem v hu, hl⟩]
      · rw [if_neg hrest]
        unfold write
        by_cases hv : key v = some l
        · rw [if_pos ⟨v, List.mem_cons_self, hv⟩, hv, Option.elim_some, get_set_self,
            h v List.mem_cons_self l hv]
        · have hnone : ¬ ∃ u ∈ v :: vs, key u = some l := by
            rintro ⟨u, hu, hl⟩
            rcases List.mem_cons.mp hu with rfl | hu
            · exact hv hl
            · exact hrest ⟨u, hu, hl⟩
          rw [if_neg hnone]
          cases hkey : key v with
          | none => rfl
          | some k =>
              rw [Option.elim_some, get_set_ne]
              rintro rfl
              exact hv hkey

/-- A store whose values determine their keys is restored from any list of its values. -/
theorem get_restore_perm (h : ∀ k v, s.get k = some v → key v = some k)
    (hvs : vs.Perm s.values) (l : K) : (restore key ∅ vs).get l = s.get l := by
  have htable : ∀ v ∈ vs, ∀ k, key v = some k → s.get k = some v := by
    intro v hv k hk
    obtain ⟨k', hk'⟩ := (mem_values_iff s v).mp (hvs.subset hv)
    obtain rfl : k' = k := Option.some.inj ((h k' v hk').symm.trans hk)
    exact hk'
  rw [get_restore key htable]
  split_ifs with hl
  · rfl
  · cases hget : s.get l with
    | none => rfl
    | some v =>
        have hv : v ∈ vs := hvs.mem_iff.mpr ((mem_values_iff s v).mpr ⟨l, hget⟩)
        exact (hl ⟨v, hv, h l v hget⟩).elim

theorem get_restore_values (h : ∀ k v, s.get k = some v → key v = some k) (l : K) :
    (restore key ∅ s.values).get l = s.get l := get_restore_perm key h (List.Perm.refl _) l

end Reads

/-- The values in the order of their keys. -/
def inKeyOrder {V : Type} (s : Store String V) : List V :=
  s.ordered.map fun e => e.2

theorem inKeyOrder_perm {V : Type} (s : Store String V) : (inKeyOrder s).Perm s.values :=
  (List.perm_insertionSort _ s.entries).map _

section Totals
variable (w : V → ℤ) {s : Store K V} {v : V} {vs : List V}

/-- What writing `v` makes the total miss: `v` itself, or what it replaces. -/
def lost (s : Store K V) (v : V) : ℤ := (key v).elim (w v) fun k => share w (s.get k)

theorem total_write (s : Store K V) (v : V) :
    total w (write key s v) = total w s + w v - lost key w s v := by
  unfold write lost
  cases key v with
  | none => simp
  | some k =>
      simp only [Option.elim_some, total_set]
      omega

variable {w}

theorem share_nonneg (hs : ∀ k v, s.get k = some v → 0 ≤ w v) (k : K) :
    0 ≤ share w (s.get k) := by
  cases h : s.get k with
  | none => exact le_refl 0
  | some v => exact hs k v h

theorem lost_nonneg (hs : ∀ k v, s.get k = some v → 0 ≤ w v) (hv : 0 ≤ w v) :
    0 ≤ lost key w s v := by
  unfold lost
  cases key v with
  | none => exact hv
  | some k => exact share_nonneg hs k

theorem write_nonneg (hs : ∀ k v, s.get k = some v → 0 ≤ w v) (hv : 0 ≤ w v) :
    ∀ k u, (write key s v).get k = some u → 0 ≤ w u := by
  intro k u hu
  unfold write at hu
  cases hkey : key v with
  | none =>
      rw [hkey] at hu
      exact hs k u hu
  | some l =>
      rw [hkey, Option.elim_some, get_set] at hu
      split_ifs at hu
      · cases hu
        exact hv
      · exact hs k u hu

theorem total_restore_le (hs : ∀ k v, s.get k = some v → 0 ≤ w v) (hw : ∀ v ∈ vs, 0 ≤ w v) :
    total w (restore key s vs) ≤ total w s + (vs.map w).sum := by
  induction vs generalizing s with
  | nil => simp
  | cons v vs ih =>
      have hv := hw v List.mem_cons_self
      have hrest := ih (write_nonneg key hs hv) fun u hu => hw u (List.mem_cons_of_mem v hu)
      have hlost := lost_nonneg key hs hv
      rw [total_write] at hrest
      rw [restore_cons, List.map_cons, List.sum_cons]
      omega

variable (w) in
/-- Whatever restoring leaves out or replaces weighs nothing. -/
structure Lossless (s : Store K V) (vs : List V) : Prop where
  keyed : ∀ v ∈ vs, key v = none → w v = 0
  fresh : ∀ v ∈ vs, ∀ k, key v = some k → share w (s.get k) = 0
  once : vs.Pairwise fun u v => ∀ k, key u = some k → key v = some k → w u = 0

theorem lossless_cons : Lossless key w s (v :: vs) ↔
    lost key w s v = 0 ∧ Lossless key w (write key s v) vs := by
  unfold lost write
  cases hkey : key v with
  | none =>
      constructor
      · rintro ⟨hkeyed, hfresh, honce⟩
        exact ⟨hkeyed v List.mem_cons_self hkey, fun u hu => hkeyed u (List.mem_cons_of_mem v hu),
          fun u hu => hfresh u (List.mem_cons_of_mem v hu), honce.of_cons⟩
      · rintro ⟨hv, hkeyed, hfresh, honce⟩
        refine ⟨?_, ?_, List.pairwise_cons.mpr ⟨?_, honce⟩⟩
        · exact List.forall_mem_cons.mpr ⟨fun _ => hv, hkeyed⟩
        · refine List.forall_mem_cons.mpr ⟨?_, hfresh⟩
          intro k hk
          rw [hkey] at hk
          cases hk
        · intro u hu k hk
          rw [hkey] at hk
          cases hk
  | some l =>
      simp only [Option.elim_some]
      constructor
      · rintro ⟨hkeyed, hfresh, honce⟩
        refine ⟨hfresh v List.mem_cons_self l hkey,
          fun u hu => hkeyed u (List.mem_cons_of_mem v hu), ?_, honce.of_cons⟩
        intro u hu k hk
        rw [get_set]
        split_ifs with hkl
        · exact (List.pairwise_cons.mp honce).1 u hu l hkey (hkl ▸ hk)
        · exact hfresh u (List.mem_cons_of_mem v hu) k hk
      · rintro ⟨hv, hkeyed, hfresh, honce⟩
        refine ⟨?_, ?_, List.pairwise_cons.mpr ⟨?_, honce⟩⟩
        · refine List.forall_mem_cons.mpr ⟨?_, hkeyed⟩
          intro hnone
          rw [hkey] at hnone
          cases hnone
        · refine List.forall_mem_cons.mpr ⟨?_, ?_⟩
          · intro k hk
            cases hkey.symm.trans hk
            exact hv
          · intro u hu k hk
            have hset := hfresh u hu k hk
            rw [get_set] at hset
            split_ifs at hset with hkl
            · rw [hkl]
              exact hv
            · exact hset
        · intro u hu k hk hku
          cases hkey.symm.trans hk
          simpa using hfresh u hu l hku

/-- The sum over the list is the total exactly when nothing is lost. -/
theorem total_restore_eq_iff (hs : ∀ k v, s.get k = some v → 0 ≤ w v) (hw : ∀ v ∈ vs, 0 ≤ w v) :
    total w (restore key s vs) = total w s + (vs.map w).sum ↔ Lossless key w s vs := by
  induction vs generalizing s with
  | nil =>
      simp only [restore_nil, List.map_nil, List.sum_nil, add_zero, true_iff]
      exact ⟨by simp, by simp, List.Pairwise.nil⟩
  | cons v vs ih =>
      have hv := hw v List.mem_cons_self
      have hs' := write_nonneg key hs hv
      have hw' : ∀ u ∈ vs, 0 ≤ w u := fun u hu => hw u (List.mem_cons_of_mem v hu)
      have hle := total_restore_le key hs' hw'
      have hlost := lost_nonneg key hs hv
      have hwrite := total_write key w s v
      rw [lossless_cons, ← ih hs' hw', restore_cons, List.map_cons, List.sum_cons]
      omega

end Totals

end Zytherion.KeyedStore.Store
