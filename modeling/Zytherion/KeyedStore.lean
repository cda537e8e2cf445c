import Mathlib.Data.List.AList
import Mathlib.Algebra.BigOperators.Group.List.Basic
import Mathlib.Algebra.Order.BigOperators.Group.List
import Mathlib.Algebra.Order.Ring.Int
import Mathlib.Data.List.Sort
import Mathlib.Data.String.Basic

/-!
# Finite keyed stores and the totals kept over them

A store is a finite map. `total f` adds up a number read off every stored
value, so that a counter maintained next to the store can be compared with it.
The two update laws say how one write or one deletion moves a total: by the
new value's share, less the share of what stood at the key before.
-/
namespace Zytherion.KeyedStore

/-- A finite map from keys to values, each key stored at most once. -/
abbrev Store (K V : Type) : Type := AList fun _ : K => V

namespace Store
variable {K V : Type} [DecidableEq K]

def get (s : Store K V) (k : K) : Option V := s.lookup k

def set (s : Store K V) (k : K) (v : V) : Store K V := s.insert k v

def delete (s : Store K V) (k : K) : Store K V := s.erase k

def values (s : Store K V) : List V := s.entries.map fun e => e.2

@[simp] theorem get_empty (k : K) : get (∅ : Store K V) k = none := rfl

@[simp] theorem get_set_self (s : Store K V) (k : K) (v : V) : (s.set k v).get k = some v :=
  AList.lookup_insert s

theorem get_set_ne (s : Store K V) {k l : K} (v : V) (h : l ≠ k) :
    (s.set k v).get l = s.get l := AList.lookup_insert_ne h

theorem get_set (s : Store K V) (k l : K) (v : V) :
    (s.set k v).get l = if l = k then some v else s.get l := by
  split_ifs with h
  · rw [h, get_set_self]
  · exact get_set_ne s v h

@[simp] theorem get_delete_self (s : Store K V) (k : K) : (s.delete k).get k = none :=
  AList.lookup_erase k s

theorem get_delete_ne (s : Store K V) {k l : K} (h : l ≠ k) :
    (s.delete k).get l = s.get l := AList.lookup_erase_ne h

theorem get_delete (s : Store K V) (k l : K) :
    (s.delete k).get l = if l = k then none else s.get l := by
  split_ifs with h
  · rw [h, get_delete_self]
  · exact get_delete_ne s h

/-- Values that depend on the key alone, written one after the other. -/
theorem get_foldl_set {β : Type} (key : β → K) (value : K → V) (xs : List β) (s : Store K V)
    (l : K) : (xs.foldl (fun t x => t.set (key x) (value (key x))) s).get l =
      if l ∈ xs.map key then some (value l) else s.get l := by
  induction xs generalizing s with
  | nil => rfl
  | cons x rest ih =>
      rw [List.foldl_cons, ih, get_set, List.map_cons]
      by_cases hrest : l ∈ rest.map key
      · rw [if_pos hrest, if_pos (List.mem_cons_of_mem _ hrest)]
      · by_cases hx : l = key x
        · rw [if_neg hrest, if_pos hx, if_pos (hx ▸ List.mem_cons_self), hx]
        · rw [if_neg hrest, if_neg hx, if_neg (by simp [hx, hrest])]

theorem set_set (s : Store K V) (k : K) (v w : V) : (s.set k v).set k w = s.set k w :=
  AList.insert_insert s

theorem mem_values_iff (s : Store K V) (v : V) : v ∈ s.values ↔ ∃ k, s.get k = some v := by
  constructor
  · intro h
    obtain ⟨e, he, rfl⟩ := List.mem_map.mp h
    exact ⟨e.1, AList.mem_lookup_iff.mpr he⟩
  · rintro ⟨k, hk⟩
    exact List.mem_map.mpr ⟨⟨k, v⟩, AList.mem_lookup_iff.mp hk, rfl⟩

/-- The sum of `f` over everything stored. -/
def total (f : V → ℤ) (s : Store K V) : ℤ := (s.values.map f).sum

/-- What the value at one key contributes to a total. -/
def share (f : V → ℤ) (o : Option V) : ℤ := o.elim 0 f

@[simp] theorem share_none (f : V → ℤ) : share f none = 0 := rfl

@[simp] theorem share_some (f : V → ℤ) (v : V) : share f (some v) = f v := rfl

omit [DecidableEq K] in
@[simp] theorem total_empty (f : V → ℤ) : total f (∅ : Store K V) = 0 := rfl

private theorem sum_kerase (f : V → ℤ) (k : K) (l : List (Σ _ : K, V)) :
    (((l.kerase k).map fun e => e.2).map f).sum =
      ((l.map fun e => e.2).map f).sum - share f (l.dlookup k) := by
  induction l with
  | nil => rfl
  | cons e l ih =>
      by_cases h : k = e.1
      · obtain ⟨k', v⟩ := e
        subst h
        simp [List.kerase_cons_eq, List.dlookup_cons_eq]
      · rw [List.kerase_cons_ne h, List.dlookup_cons_ne _ _ h]
        simp only [List.map_cons, List.sum_cons, ih]
        omega

theorem total_delete (f : V → ℤ) (s : Store K V) (k : K) :
    total f (s.delete k) = total f s - share f (s.get k) := sum_kerase f k s.entries

theorem total_set (f : V → ℤ) (s : Store K V) (k : K) (v : V) :
    total f (s.set k v) = total f s - share f (s.get k) + f v := by
  have h : total f (s.set k v) = f v + total f (s.delete k) := by
    simp only [total, values, set, AList.entries_insert, List.map_cons, List.sum_cons]
    rfl
  rw [h, total_delete]
  omega

/-- Writing an entry or removing it. -/
def put (s : Store K V) (k : K) (o : Option V) : Store K V := o.elim (s.delete k) (s.set k)

theorem get_put (s : Store K V) (k l : K) (o : Option V) :
    (s.put k o).get l = if l = k then o else s.get l := by
  cases o with
  | none => exact get_delete s k l
  | some v => exact get_set s k l v

theorem total_put (f : V → ℤ) (s : Store K V) (k : K) (o : Option V) :
    total f (s.put k o) = total f s - share f (s.get k) + share f o := by
  cases o with
  | none => simpa [put] using total_delete f s k
  | some v => exact total_set f s k v

theorem total_nonneg {f : V → ℤ} {s : Store K V} (h : ∀ k v, s.get k = some v → 0 ≤ f v) :
    0 ≤ total f s := by
  apply List.sum_nonneg
  intro x hx
  obtain ⟨v, hv, rfl⟩ := List.mem_map.mp hx
  obtain ⟨k, hk⟩ := (mem_values_iff s v).mp hv
  exact h k v hk

/-- With no negative share, no single value exceeds the total. -/
theorem le_total {f : V → ℤ} {s : Store K V} (h : ∀ k v, s.get k = some v → 0 ≤ f v)
    {k : K} {v : V} (hk : s.get k = some v) : f v ≤ total f s := by
  have hd : 0 ≤ total f (s.delete k) := by
    apply total_nonneg
    intro l w hl
    rw [get_delete] at hl
    split_ifs at hl
    exact h l w hl
  rw [total_delete, hk, share_some] at hd
  omega

/-- Removing every value that `p` holds of. -/
def discard (s : Store K V) (p : V → Bool) : Store K V :=
  ⟨s.entries.filter fun e => !p e.2, s.nodupKeys.sublist List.filter_sublist⟩

theorem get_discard (s : Store K V) (p : V → Bool) (k : K) :
    (s.discard p).get k = (s.get k).filter fun v => !p v := by
  ext v
  rw [Option.filter_eq_some_iff]
  simp only [get, AList.lookup]
  rw [← Option.mem_def, ← Option.mem_def, List.mem_dlookup_iff (s.discard p).nodupKeys,
    List.mem_dlookup_iff s.nodupKeys]
  exact List.mem_filter

/-- What is stored under the keys that `q` holds of. -/
def restrict (s : Store K V) (q : K → Bool) : Store K V :=
  ⟨s.entries.filter fun e => q e.1, s.nodupKeys.sublist List.filter_sublist⟩

theorem get_restrict (s : Store K V) (q : K → Bool) (k : K) :
    (s.restrict q).get k = if q k then s.get k else none := by
  ext v
  have hmem : (s.restrict q).get k = some v ↔ s.get k = some v ∧ q k = true := by
    simp only [get, AList.lookup]
    rw [← Option.mem_def, ← Option.mem_def, List.mem_dlookup_iff (s.restrict q).nodupKeys,
      List.mem_dlookup_iff s.nodupKeys]
    exact List.mem_filter
  rw [hmem]
  split_ifs with hq <;> simp [hq]

/-! Iteration over keys that are texts. -/

section Iteration
variable {s s' : Store String V} {q : String → Bool}

/-- The entries in the order of their keys. -/
def ordered (s : Store String V) : List (Sigma fun _ : String => V) :=
  s.entries.insertionSort fun a b => a.1 ≤ b.1

theorem mem_ordered {e : Sigma fun _ : String => V} :
    e ∈ s.ordered ↔ s.get e.1 = some e.2 := by
  rw [ordered, List.mem_insertionSort]
  exact AList.mem_lookup_iff.symm

theorem ordered_ascending (s : Store String V) : s.ordered.Pairwise fun a b => a.1 < b.1 := by
  have hdistinct : s.ordered.Pairwise fun a b => a.1 ≠ b.1 :=
    (List.Perm.pairwise_iff (fun {a b} h => Ne.symm h) (List.perm_insertionSort _ _)).mpr
      (List.pairwise_map.mp s.nodupKeys)
  have hsorted : s.ordered.Pairwise fun a b => a.1 ≤ b.1 := List.pairwise_insertionSort _ _
  exact (hsorted.and hdistinct).imp fun h => lt_of_le_of_ne h.1 h.2

/-- Lists in ascending order with the same members are the same. -/
theorem eq_of_ascending {l l' : List (Sigma fun _ : String => V)}
    (h : l.Pairwise fun a b => a.1 < b.1) (h' : l'.Pairwise fun a b => a.1 < b.1)
    (hmem : ∀ e, e ∈ l ↔ e ∈ l') : l = l' := by
  have hnodup : ∀ {l : List (Sigma fun _ : String => V)}, l.Pairwise (fun a b => a.1 < b.1) →
      l.Nodup := fun h => h.imp fun hlt heq => absurd (congrArg Sigma.fst heq) (ne_of_lt hlt)
  have hperm := (List.perm_ext_iff_of_nodup (hnodup h) (hnodup h')).mpr hmem
  exact hperm.eq_of_pairwise (fun a b _ _ hab hba => absurd hba (lt_asymm hab)) h h'

/-- The values under the keys that `q` holds of, in the order of the keys. -/
def select (s : Store String V) (q : String → Bool) : List V :=
  (s.ordered.filter fun e => q e.1).map fun e => e.2

theorem mem_select (s : Store String V) (q : String → Bool) (v : V) :
    v ∈ s.select q ↔ ∃ k, s.get k = some v ∧ q k = true := by
  simp only [select, List.mem_map, List.mem_filter, mem_ordered]
  constructor
  · rintro ⟨e, ⟨he, hq⟩, rfl⟩
    exact ⟨e.1, he, hq⟩
  · rintro ⟨k, hk, hq⟩
    exact ⟨⟨k, v⟩, ⟨hk, hq⟩, rfl⟩

/-- Only the entries under the keys that are selected matter. -/
theorem select_congr (h : ∀ k, q k = true → s.get k = s'.get k) : s.select q = s'.select q := by
  refine congrArg (List.map _) (eq_of_ascending (s.ordered_ascending.filter _)
    (s'.ordered_ascending.filter _) fun e => ?_)
  simp only [List.mem_filter, mem_ordered]
  exact and_congr_left fun hq => by rw [h e.1 hq]

/-- A relation between the values under two keys in ascending order relates the selected
values. -/
theorem pairwise_select {R : V → V → Prop}
    (h : ∀ k l v u, k < l → s.get k = some v → s.get l = some u → R v u) :
    (s.select q).Pairwise R := by
  refine List.pairwise_map.mpr ((s.ordered_ascending.filter _).imp_of_mem fun {e f} he hf hlt => ?_)
  exact h e.1 f.1 e.2 f.2 hlt (mem_ordered.mp (List.mem_filter.mp he).1)
    (mem_ordered.mp (List.mem_filter.mp hf).1)

theorem select_discard (s : Store String V) (p : V → Bool) (q : String → Bool) :
    (s.discard p).select q = (s.select q).filter fun v => !p v := by
  have hordered : (s.discard p).ordered = s.ordered.filter fun e => !p e.2 := by
    refine eq_of_ascending (ordered_ascending _) (s.ordered_ascending.filter _) fun e => ?_
    rw [List.mem_filter, mem_ordered, mem_ordered, get_discard, Option.filter_eq_some_iff]
  simp only [select, hordered, List.filter_map, List.filter_filter]
  congr 2
  funext e
  exact Bool.and_comm ..

theorem select_set_of_not {k : String} {v : V} (h : q k = false) :
    (s.set k v).select q = s.select q := by
  refine select_congr fun l hl => ?_
  rw [get_set, if_neg]
  rintro rfl
  rw [h] at hl
  cases hl

/-- A write under one key, where two stores agree on the values that matter. -/
theorem filter_select_set {p : V → Bool}
    (h : ∀ q, (s.select q).filter p = (s'.select q).filter p) (k : String) (v : V)
    (q : String → Bool) :
    ((s.set k v).select q).filter p = ((s'.set k v).select q).filter p := by
  have hkept : ∀ (t : Store String V) q, (t.select q).filter p =
      (t.discard fun v => !p v).select q := by
    intro t q
    rw [select_discard]
    simp
  have hget : ∀ l, (s.get l).filter p = (s'.get l).filter p := by
    intro l
    ext u
    have hmem := congrArg (u ∈ ·) (h fun k => decide (k = l))
    simpa [List.mem_filter, mem_select, Option.filter_eq_some_iff] using hmem
  rw [hkept, hkept]
  refine select_congr fun l _ => ?_
  simp only [get_discard, get_set, Bool.not_not]
  split_ifs
  · rfl
  · exact hget l

end Iteration

end Store

/-- A key made of a part without the separator, the separator and a free part
determines both parts. -/
theorem separated_inj {α : Type} {sep : α} {xs ys us vs : List α} (hx : sep ∉ xs) (hu : sep ∉ us)
    (h : xs ++ sep :: ys = us ++ sep :: vs) : xs = us ∧ ys = vs := by
  induction xs generalizing us with
  | nil =>
      cases us with
      | nil => exact ⟨rfl, (List.cons.inj h).2⟩
      | cons u us => exact (hu (by simp [(List.cons.inj h).1])).elim
  | cons x xs ih =>
      cases us with
      | nil => exact (hx (by simp [(List.cons.inj h).1])).elim
      | cons u us =>
          obtain ⟨rfl, ht⟩ := List.cons.inj h
          obtain ⟨rfl, rfl⟩ := ih (List.not_mem_of_not_mem_cons hx)
            (List.not_mem_of_not_mem_cons hu) ht
          exact ⟨rfl, rfl⟩

/-! Numbers as parts of keys. -/

theorem isDigit_of_mem_repr {n : ℕ} {c : Char} (h : c ∈ (Nat.repr n).toList) :
    c.isDigit = true := by
  rw [Nat.repr_eq_ofList_toDigits, String.toList_ofList] at h
  exact Nat.isDigit_of_mem_toDigits (by decide) (by decide) h

private theorem natRepr_inj {m n : ℕ} (h : Nat.repr m = Nat.repr n) : m = n := by
  have hdigits := congrArg (fun s : String => Nat.ofDigitChars 10 s.toList 0) h
  simpa [Nat.repr_eq_ofList_toDigits, Nat.ofDigitChars_ten_toDigits] using hdigits

theorem toString_ofNat (n : ℕ) : toString (Int.ofNat n) = Nat.repr n := rfl

theorem toString_negSucc (n : ℕ) :
    (toString (Int.negSucc n)).toList = '-' :: (Nat.repr (n + 1)).toList := by
  show ("-" ++ Nat.repr (n + 1)).toList = _
  rw [String.toList_append]
  rfl

theorem toString_int_ne_empty (i : ℤ) : toString i ≠ "" := by
  cases i with
  | ofNat n => exact Nat.repr_ne_empty
  | negSucc n =>
      intro h
      have hl := congrArg String.toList h
      rw [toString_negSucc] at hl
      exact absurd hl (by simp)

/-- A number is written in digits, with a sign or without. -/
theorem notMem_toString {c : Char} (hsign : c ≠ '-') (hdigit : ¬ c.isDigit = true) (i : ℤ) :
    c ∉ (toString i).toList := by
  cases i with
  | ofNat n => exact fun h => hdigit (isDigit_of_mem_repr h)
  | negSucc n =>
      rw [toString_negSucc, List.mem_cons]
      rintro (h | h)
      · exact hsign h
      · exact hdigit (isDigit_of_mem_repr h)

theorem slash_notMem_toString (i : ℤ) : '/' ∉ (toString i).toList :=
  notMem_toString (by decide) (by decide) i

theorem toString_int_inj {i j : ℤ} (h : toString i = toString j) : i = j := by
  cases i with
  | ofNat m =>
      cases j with
      | ofNat n => rw [natRepr_inj h]
      | negSucc n =>
          have hmem : '-' ∈ (Nat.repr m).toList := by
            rw [← toString_ofNat, h, toString_negSucc]
            exact List.mem_cons_self
          exact absurd (isDigit_of_mem_repr hmem) (by decide)
  | negSucc m =>
      cases j with
      | ofNat n =>
          have hmem : '-' ∈ (Nat.repr n).toList := by
            rw [← toString_ofNat, ← h, toString_negSucc]
            exact List.mem_cons_self
          exact absurd (isDigit_of_mem_repr hmem) (by decide)
      | negSucc n =>
          have hl := congrArg String.toList h
          rw [toString_negSucc, toString_negSucc, List.cons.injEq] at hl
          have hnat := natRepr_inj (String.toList_inj.mp hl.2)
          rw [Nat.add_right_cancel hnat]

end Zytherion.KeyedStore
